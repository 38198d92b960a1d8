import ProtoStub.Codec.Basic
import ProtoStub.Text.Blank

/-!
# Numerals read back

The decimal text of a number is read back as the number, with or without white space removed
from its ends, and a number that fits a machine word is found again among the words of that
size. The keys of maps are texts of this kind, and so are wide integers in JSON.
-/

namespace ProtoStub.Text

/-! ## Digits -/

theorem digit?_digitChar {n : Nat} (h : n < 10) : digit? n.digitChar = some n := by
  match n, h with
  | 0, _ | 1, _ | 2, _ | 3, _ | 4, _ | 5, _ | 6, _ | 7, _ | 8, _ | 9, _ => decide

/-- A further digit multiplies what is there by ten. -/
theorem digitsFrom_append_singleton (acc : Nat) (cs : List Char) (c : Char) :
    digitsFrom acc (cs ++ [c]) =
      (digitsFrom acc cs).bind fun n => (digit? c).map fun d => 10 * n + d := by
  induction cs generalizing acc with
  | nil =>
    simp only [List.nil_append, digitsFrom, Option.bind_some]
    cases digit? c <;> rfl
  | cons c' cs ih =>
    simp only [List.cons_append, digitsFrom]
    cases digit? c' with
    | none => rfl
    | some d => exact ih (10 * acc + d)

theorem digitsFrom_toDigits (n : Nat) : digitsFrom 0 (Nat.toDigits 10 n) = some n := by
  induction n using Nat.strongRecOn with
  | _ n ih =>
    rw [Nat.toDigits_eq_if (by decide)]
    split
    next h =>
      simp only [digitsFrom, digit?_digitChar h, Option.bind_some, Nat.mul_zero, Nat.zero_add]
    next h =>
      rw [digitsFrom_append_singleton, ih (n / 10) (by omega),
        digit?_digitChar (Nat.mod_lt n (by decide))]
      simp only [Option.bind_some, Option.map_some, Option.some.injEq]
      omega

/-- The digits of a number start with a digit. -/
theorem exists_toDigits_eq_cons (n : Nat) :
    ∃ c cs, Nat.toDigits 10 n = c :: cs ∧ c.isDigit = true := by
  cases h : Nat.toDigits 10 n with
  | nil => exact absurd h Nat.toDigits_ne_nil
  | cons c cs =>
    have hc : c ∈ Nat.toDigits 10 n := h ▸ List.mem_cons_self
    exact ⟨c, cs, rfl, Nat.isDigit_of_mem_toDigits (by decide) (by decide) hc⟩

theorem digits?_toDigits (n : Nat) : digits? (Nat.toDigits 10 n) = some n := by
  obtain ⟨c, cs, h, -⟩ := exists_toDigits_eq_cons n
  have hn := digitsFrom_toDigits n
  rw [h] at hn ⊢
  exact hn

/-! ## Signs -/

theorem natural?_toString (n : Nat) : natural? (toString n) = some n := by
  obtain ⟨c, cs, h, hc⟩ := exists_toDigits_eq_cons n
  have hlist : (toString n).toList = Nat.toDigits 10 n := Nat.toList_repr
  have hn := digits?_toDigits n
  rw [h] at hn
  rw [natural?, hlist, h]
  split
  next heq =>
    cases heq
    exact absurd hc (by decide)
  next heq => exact hn

theorem integer?_toString (n : Int) : integer? (toString n) = some n := by
  cases n with
  | ofNat n =>
    obtain ⟨c, cs, h, hc⟩ := exists_toDigits_eq_cons n
    have hlist : (toString (Int.ofNat n)).toList = Nat.toDigits 10 n := Nat.toList_repr
    have hn := digits?_toDigits n
    rw [h] at hn
    rw [integer?, hlist, h]
    split
    next heq =>
      cases heq
      exact absurd hc (by decide)
    next heq =>
      cases heq
      exact absurd hc (by decide)
    next heq =>
      rw [hn]
      rfl
  | negSucc n =>
    have hlist : (toString (Int.negSucc n)).toList = '-' :: Nat.toDigits 10 (n + 1) := by
      have htext : toString (Int.negSucc n) = "-" ++ Nat.repr (n + 1) := rfl
      rw [htext, String.toList_append, Nat.toList_repr]
      rfl
    rw [integer?, hlist]
    simp only [digits?_toDigits]
    rfl

/-! ## White space -/

theorem isBlank_eq_false_of_isDigit {c : Char} (h : c.isDigit = true) : isBlank c = false := by
  have hrange : 48 ≤ c.toNat ∧ c.toNat ≤ 57 := by
    simp only [Char.isDigit, Bool.and_eq_true, decide_eq_true_eq] at h
    exact h
  simp only [isBlank, blankRanges, List.any_cons, List.any_nil, Bool.or_false,
    Bool.or_eq_false_iff, Bool.and_eq_false_iff, decide_eq_false_iff_not]
  omega

/-- Nothing is trimmed from a text without white space. -/
theorem trim_of_forall {s : String} (h : ∀ c ∈ s.toList, isBlank c = false) : trim s = s := by
  have hdrop : ∀ cs : List Char, (∀ c ∈ cs, isBlank c = false) → cs.dropWhile isBlank = cs := by
    intro cs hcs
    cases cs with
    | nil => rfl
    | cons c cs => rw [List.dropWhile_cons, hcs c List.mem_cons_self, if_neg Bool.false_ne_true]
  have hrev : ∀ c ∈ s.toList.reverse, isBlank c = false := fun c hc => h c (List.mem_reverse.1 hc)
  rw [trim, trimChars, trimEndChars, hdrop _ h, hdrop _ hrev, List.reverse_reverse,
    String.ofList_toList]

theorem trim_toString_nat (n : Nat) : trim (toString n) = toString n := by
  refine trim_of_forall fun c hc => isBlank_eq_false_of_isDigit ?_
  have hlist : (toString n).toList = Nat.toDigits 10 n := Nat.toList_repr
  exact Nat.isDigit_of_mem_toDigits (by decide) (by decide) (hlist ▸ hc)

theorem trim_toString_int (n : Int) : trim (toString n) = toString n := by
  cases n with
  | ofNat n => exact trim_toString_nat n
  | negSucc n =>
    refine trim_of_forall fun c hc => ?_
    have htext : toString (Int.negSucc n) = "-" ++ Nat.repr (n + 1) := rfl
    rw [htext, String.toList_append, Nat.toList_repr] at hc
    rcases List.mem_append.1 hc with hc | hc
    · rw [show c = '-' from List.mem_singleton.1 hc]
      decide
    · exact isBlank_eq_false_of_isDigit
        (Nat.isDigit_of_mem_toDigits (by decide) (by decide) hc)

end ProtoStub.Text

namespace ProtoStub.Codec

/-! ## Machine words -/

theorem int32OfInt?_toInt (n : Int32) : int32OfInt? n.toInt = some n := by
  rw [int32OfInt?, if_pos ⟨n.minValue_le_toInt, n.toInt_le⟩, Int32.ofInt_toInt]

theorem int64OfInt?_toInt (n : Int64) : int64OfInt? n.toInt = some n := by
  rw [int64OfInt?, if_pos ⟨n.minValue_le_toInt, n.toInt_le⟩, Int64.ofInt_toInt]

theorem uint32OfNat?_toNat (n : UInt32) : uint32OfNat? n.toNat = some n := by
  rw [uint32OfNat?, if_pos n.toNat_lt, UInt32.ofNat_toNat]

theorem uint64OfNat?_toNat (n : UInt64) : uint64OfNat? n.toNat = some n := by
  rw [uint64OfNat?, if_pos n.toNat_lt, UInt64.ofNat_toNat]

end ProtoStub.Codec
