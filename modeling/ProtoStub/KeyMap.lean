/-
  Finite maps with text keys, as lists of pairs in increasing order of the keys. The
  order is by code point, which is also the order of the UTF-8 encodings. A list
  whose keys increase strictly is determined by its look-ups, so two maps with the
  same content are the same list.
-/

namespace ProtoStub

/-- A map from texts, as a list of pairs. -/
abbrev KeyMap (α : Type) : Type := List (String × α)

namespace KeyMap

variable {α β : Type}

/-- The value of a key. -/
def find? (m : KeyMap α) (key : String) : Option α :=
  match m with
  | [] => none
  | (k, v) :: rest => if k = key then some v else find? rest key

/-- Gives a key a value, in place of the one it has. -/
def insert (m : KeyMap α) (key : String) (value : α) : KeyMap α :=
  match m with
  | [] => [(key, value)]
  | (k, v) :: rest =>
    if key < k then (key, value) :: (k, v) :: rest
    else if key = k then (key, value) :: rest
    else (k, v) :: insert rest key value

/-- Removes a key. -/
def erase (m : KeyMap α) (key : String) : KeyMap α :=
  m.filter fun p => p.1 ≠ key

/-- The map of the pairs, a later pair replacing an earlier one with the same key. -/
def ofPairs (pairs : List (String × α)) : KeyMap α :=
  pairs.foldl (fun m p => insert m p.1 p.2) []

/-- The keys increase strictly. -/
def Sorted (m : KeyMap α) : Prop :=
  m.Pairwise fun p q => p.1 < q.1

@[simp] theorem find?_nil (key : String) : find? ([] : KeyMap α) key = none := rfl

theorem find?_cons (k : String) (v : α) (rest : KeyMap α) (key : String) :
    find? ((k, v) :: rest) key = if k = key then some v else find? rest key := rfl

/-- Looking up after an insertion. -/
theorem find?_insert (m : KeyMap α) (key : String) (value : α) (other : String) :
    find? (insert m key value) other = if key = other then some value else find? m other := by
  induction m with
  | nil => rfl
  | cons p rest ih =>
    obtain ⟨k, v⟩ := p
    unfold insert
    split
    · rfl
    split
    next heq =>
      subst heq
      simp only [find?_cons]
      split <;> rfl
    next hne =>
      simp only [find?_cons, ih]
      split
      next hk =>
        subst hk
        simp [hne]
      · rfl

/-- Looking up after a removal. -/
theorem find?_erase (m : KeyMap α) (key other : String) :
    find? (erase m key) other = if key = other then none else find? m other := by
  induction m with
  | nil => simp [erase]
  | cons p rest ih =>
    obtain ⟨k, v⟩ := p
    unfold erase at ih ⊢
    rw [List.filter_cons]
    by_cases hk : k = key
    · subst hk
      simp only [ne_eq, not_true_eq_false, decide_false, Bool.false_eq_true, if_false, ih,
        find?_cons]
      split <;> rfl
    · simp only [ne_eq, hk, not_false_eq_true, decide_true, if_true, find?_cons, ih]
      split
      next ho =>
        subst ho
        simp [Ne.symm hk]
      · rfl

/-- Looking up commutes with a change of the values. -/
theorem find?_map (f : α → β) (m : KeyMap α) (key : String) :
    find? (m.map fun p => (p.1, f p.2)) key = (find? m key).map f := by
  induction m with
  | nil => rfl
  | cons p rest ih =>
    simp only [List.map_cons, find?_cons, ih]
    split <;> simp [find?, *]

end KeyMap
end ProtoStub
