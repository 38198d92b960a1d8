/-
  What a number reaches in a graph over the numbers below a bound. The search visits
  each number at most once: whenever it takes a new number from its list of things
  to do, fewer unseen numbers remain.
-/

namespace ProtoStub.Scope

/-- The numbers below `bound` that have not been seen. -/
def unseen (bound : Nat) (seen : List Nat) : List Nat :=
  (List.range bound).filter (· ∉ seen)

/-- Seeing a new number leaves fewer unseen ones. -/
theorem length_unseen_cons_lt {bound i : Nat} {seen : List Nat} (hi : i < bound)
    (hnew : i ∉ seen) : (unseen bound (i :: seen)).length < (unseen bound seen).length := by
  have hsplit : unseen bound (i :: seen) = (unseen bound seen).filter (· ≠ i) := by
    simp only [unseen, List.filter_filter]
    congr 1
    funext a
    simp
  rw [hsplit, List.length_filter_lt_length_iff_exists]
  exact ⟨i, by simp [unseen, hi, hnew], by simp⟩

/-- The numbers seen once nothing is left to do. -/
def closure (next : Nat → List Nat) (bound : Nat) (todo seen : List Nat) : List Nat :=
  match todo with
  | [] => seen
  | i :: todo =>
    if _h : i < bound ∧ i ∉ seen then closure next bound (next i ++ todo) (i :: seen)
    else closure next bound todo seen
termination_by ((unseen bound seen).length, todo.length)
decreasing_by
  · exact Prod.Lex.left _ _ (length_unseen_cons_lt _h.1 _h.2)
  · exact Prod.Lex.right _ (Nat.lt_succ_self _)

/-- The numbers that `start` reaches, itself included, in increasing order. -/
def reachable (next : Nat → List Nat) (bound start : Nat) : List Nat :=
  (List.range bound).filter (· ∈ closure next bound [start] [])

end ProtoStub.Scope
