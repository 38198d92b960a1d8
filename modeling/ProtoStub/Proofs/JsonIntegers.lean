import Mathlib
import ProtoStub.Proofs.JsonRoundTrip
import ProtoStub.Proofs.Rounding

/-!
# Integers from JSON

A document writes an integer as a number or as the text of a numeral. It is read as that integer
or refused, with one exception: a number is tried as a double if it is not a signed 64-bit integer,
and the doubles do not tell the first numbers after the greatest such integer from their neighbour.
These numbers are read as the greatest integer (`value_exact_iff`).

Texts never go through a double, and a narrower type refuses what the wider one makes of them.
-/

namespace ProtoStub

/-! ## Numerals -/

namespace Text

/-- The number that decimal digits write. -/
def decimal (digits : List Char) : Nat :=
  Nat.ofDigits 10 (digits.reverse.map fun c => c.toNat - 48)

/-- A numeral, whether it has a minus sign, and the integer that it writes. -/
inductive Numeral : List Char → Bool → Int → Prop
  | plain {digits : List Char} (hne : digits ≠ []) (hdigits : ∀ c ∈ digits, c.isDigit = true) :
      Numeral digits false (decimal digits)
  | plus {digits : List Char} (hne : digits ≠ []) (hdigits : ∀ c ∈ digits, c.isDigit = true) :
      Numeral ('+' :: digits) false (decimal digits)
  | minus {digits : List Char} (hne : digits ≠ []) (hdigits : ∀ c ∈ digits, c.isDigit = true) :
      Numeral ('-' :: digits) true (-(decimal digits : Int))

theorem digit?_of_isDigit {c : Char} (h : c.isDigit = true) : digit? c = some (c.toNat - 48) := by
  simp only [Char.isDigit, Bool.and_eq_true, decide_eq_true_eq] at h
  exact if_pos h

theorem digits?_decimal {digits : List Char} (hne : digits ≠ [])
    (h : ∀ c ∈ digits, c.isDigit = true) : digits? digits = some (decimal digits) := by
  have hfrom : digitsFrom 0 digits = some (decimal digits) := by
    clear hne
    -- the last digit counts once, and ten times what stands before it
    induction digits using List.reverseRecOn with
    | nil => rfl
    | append_singleton ds c ih =>
      have hc := digit?_of_isDigit (h c (by simp))
      rw [digitsFrom_append_singleton, ih fun x hx => h x (by simp [hx]), hc]
      simp only [Option.bind_some, Option.map_some, decimal, List.reverse_append,
        List.reverse_singleton, List.singleton_append, List.map_cons, Nat.ofDigits_cons,
        Nat.add_comm]
  cases digits with
  | nil => exact absurd rfl hne
  | cons c cs => exact hfrom

theorem exists_eq_cons_of_digits {digits : List Char} (hne : digits ≠ [])
    (h : ∀ c ∈ digits, c.isDigit = true) : ∃ c cs, digits = c :: cs ∧ c ≠ '+' ∧ c ≠ '-' := by
  obtain ⟨c, cs, rfl⟩ := List.exists_cons_of_ne_nil hne
  have hc := h c List.mem_cons_self
  refine ⟨c, cs, rfl, ?_, ?_⟩ <;> rintro rfl <;> exact absurd hc (by decide)

namespace Numeral

variable {cs : List Char} {minus : Bool} {n : Int}

theorem integer?_eq (h : Numeral cs minus n) : integer? (String.ofList cs) = some n := by
  cases h with
  | plain hne hdigits =>
    obtain ⟨c, rest, rfl, hplus, hminus⟩ := exists_eq_cons_of_digits hne hdigits
    rw [integer?, String.toList_ofList]
    split
    next heq => exact absurd (List.cons.inj heq).1 hminus
    next heq => exact absurd (List.cons.inj heq).1 hplus
    next => rw [digits?_decimal hne hdigits]; rfl
  | plus hne hdigits =>
    simp only [integer?, String.toList_ofList, digits?_decimal hne hdigits]
    rfl
  | minus hne hdigits =>
    simp only [integer?, String.toList_ofList, digits?_decimal hne hdigits]
    rfl

/-- A numeral with a minus sign is no natural number, not even if it writes zero. -/
theorem natural?_eq (h : Numeral cs minus n) :
    natural? (String.ofList cs) = if minus then none else some n.toNat := by
  cases h with
  | plain hne hdigits =>
    obtain ⟨c, rest, rfl, hplus, -⟩ := exists_eq_cons_of_digits hne hdigits
    rw [natural?, String.toList_ofList]
    split
    next heq => exact absurd (List.cons.inj heq).1 hplus
    next => rw [digits?_decimal hne hdigits]; rfl
  | plus hne hdigits =>
    simp only [natural?, String.toList_ofList, digits?_decimal hne hdigits]
    rfl
  | minus hne hdigits =>
    rw [natural?, String.toList_ofList]
    rfl

theorem nonneg (h : Numeral cs minus n) (hminus : minus = false) : 0 ≤ n := by
  cases h with
  | plain | plus => exact Int.natCast_nonneg _
  | minus => cases hminus

theorem isBlank_eq_false (h : Numeral cs minus n) : ∀ c ∈ cs, isBlank c = false := by
  cases h with
  | plain _ hdigits => exact fun c hc => isBlank_eq_false_of_isDigit (hdigits c hc)
  | plus _ hdigits | minus _ hdigits =>
    rintro c (_ | ⟨_, hc⟩)
    · decide
    · exact isBlank_eq_false_of_isDigit (hdigits c hc)

theorem ne_nil (h : Numeral cs minus n) : cs ≠ [] := by
  cases h with
  | plain hne _ => exact hne
  | plus | minus => exact List.cons_ne_nil _ _

end Numeral

theorem dropWhile_blanks {blanks cs : List Char} (hblanks : ∀ c ∈ blanks, isBlank c = true)
    (hne : cs ≠ []) (hcs : ∀ c ∈ cs, isBlank c = false) (rest : List Char) :
    (blanks ++ (cs ++ rest)).dropWhile isBlank = cs ++ rest := by
  obtain ⟨c, cs, rfl⟩ := List.exists_cons_of_ne_nil hne
  rw [List.dropWhile_append_of_pos hblanks, List.cons_append, List.dropWhile_cons,
    hcs c List.mem_cons_self, if_neg Bool.false_ne_true]

/-- Blanks around a text without blanks are trimmed. -/
theorem trim_padded {before cs after : List Char} (hbefore : ∀ c ∈ before, isBlank c = true)
    (hafter : ∀ c ∈ after, isBlank c = true) (hne : cs ≠ [])
    (hcs : ∀ c ∈ cs, isBlank c = false) :
    trim (String.ofList (before ++ (cs ++ after))) = String.ofList cs := by
  have hrev := dropWhile_blanks (fun c hc => hafter c (List.mem_reverse.1 hc))
    (mt List.reverse_eq_nil_iff.1 hne) (fun c hc => hcs c (List.mem_reverse.1 hc)) []
  rw [List.append_nil] at hrev
  rw [trim, trimChars, trimEndChars, String.toList_ofList, dropWhile_blanks hbefore hne hcs,
    List.reverse_append, hrev, List.reverse_reverse]

end Text

/-! ## Integer types and documents -/

/-- The machine integers. -/
inductive IntegerType where
  | int32
  | uint32
  | int64
  | uint64
  deriving DecidableEq

/-- The machine integers that a field of a kind holds. -/
def FieldKind.integerType? : FieldKind → Option IntegerType
  | int32 | sint32 | sfixed32 => some .int32
  | uint32 | fixed32 => some .uint32
  | int64 | sint64 | sfixed64 => some .int64
  | uint64 | fixed64 => some .uint64
  | _ => none

/-- The machine integer that a value is. -/
def Value.integer? : Value → Option (IntegerType × Int)
  | int32 n => some (.int32, n.toInt)
  | uint32 n => some (.uint32, n.toNat)
  | int64 n => some (.int64, n.toInt)
  | uint64 n => some (.uint64, n.toNat)
  | _ => none

/-- A document that writes an integer, and whether it does so with a minus sign. -/
inductive Json.Writes : Json → Bool → Int → Prop
  | natural (n : UInt64) : Writes (.number (.natural n)) false n.toNat
  | negative {n : Int64} (h : n.toInt < 0) : Writes (.number (.negative n)) true n.toInt
  | text {before cs after : List Char} {minus : Bool} {n : Int}
      (hbefore : ∀ c ∈ before, Text.isBlank c = true)
      (hafter : ∀ c ∈ after, Text.isBlank c = true) (h : Text.Numeral cs minus n) :
      Writes (.string (String.ofList (before ++ (cs ++ after)))) minus n

namespace IntegerType

/-- The smallest integer of a type. -/
def least : IntegerType → Int
  | int32 => -2147483648
  | int64 => -9223372036854775808
  | uint32 | uint64 => 0

/-- The greatest integer of a type. -/
def greatest : IntegerType → Int
  | int32 => 2147483647
  | uint32 => 4294967295
  | int64 => 9223372036854775807
  | uint64 => 18446744073709551615

/-- What a fault calls an integer of a type. -/
def description : IntegerType → String
  | int32 => "a 32-bit integer"
  | uint32 => "an unsigned 32-bit integer"
  | int64 => "a 64-bit integer"
  | uint64 => "an unsigned 64-bit integer"

/-- Whether an integer that is written with or without a minus sign belongs to a type. -/
def Admits (type : IntegerType) (minus : Bool) (n : Int) : Prop :=
  type.least ≤ n ∧ n ≤ type.greatest ∧ (minus = true → type.least < 0)

instance (type : IntegerType) (minus : Bool) (n : Int) : Decidable (type.Admits minus n) :=
  inferInstanceAs (Decidable (_ ∧ _ ∧ _))

/-- The answer is the integer itself if it belongs to the type, and names the fault if not. -/
def ReadsExactly (type : IntegerType) (path : String) (json : Json) (minus : Bool) (n : Int)
    (answer : Except Error Value) : Prop :=
  if type.Admits minus n then ∃ v, answer = .ok v ∧ v.integer? = some (type, n)
  else answer = .error (Codec.unexpected path type.description json)

end IntegerType

/-- A number that the doubles do not tell from the one after the greatest signed 64-bit integer. -/
def Json.Saturates (json : Json) : Prop :=
  ∃ n : UInt64, json = .number (.natural n) ∧
    9223372036854775808 ≤ n.toNat ∧ n.toNat ≤ 9223372036854776832

namespace Json

variable {json : Json} {minus : Bool} {n : Int}

theorem Writes.nonneg (h : json.Writes minus n) (hminus : minus = false) : 0 ≤ n := by
  cases h with
  | natural n => exact Int.natCast_nonneg _
  | negative => cases hminus
  | text _ _ hnumeral => exact hnumeral.nonneg hminus

theorem Saturates.greatest_lt (hsat : json.Saturates) (h : json.Writes minus n) :
    IntegerType.int64.greatest < n := by
  obtain ⟨k, rfl, hlow, -⟩ := hsat
  cases h with
  | natural =>
    simp only [IntegerType.greatest]
    omega

end Json

/-! ## Numbers through doubles -/

namespace Binary64

theorem lastPlace_of_ge {n : Nat} (hlow : 9223372036854775808 ≤ n) (hhigh : n < UInt64.size) :
    Binary.lastPlace n = 2048 := by
  have hne : n ≠ 0 := by omega
  have hlt : n.log2 < 64 := (Nat.log2_lt hne).2 hhigh
  have hge : 63 ≤ n.log2 := (Nat.le_log2 hne).2 hlow
  rw [Binary.lastPlace, show n.log2 = 63 by omega]
  rfl

/-- A number just after the greatest signed 64-bit integer is rounded to the power of two there
if it is at most half a place away. -/
theorem nearest_le_iff {n : Nat} (hlow : 9223372036854775808 ≤ n) (hhigh : n < UInt64.size) :
    nearest n ≤ 9223372036854775808 ↔ n ≤ 9223372036854776832 := by
  rw [nearest, lastPlace_of_ge hlow hhigh]
  simp only [Binary.roundQuotient]
  split
  · omega
  · split <;> omega

theorem le_nearest {n : Nat} (hlow : 9223372036854775808 ≤ n) (hhigh : n < UInt64.size) :
    9223372036854775808 ≤ nearest n := by
  have hquotient := Binary.le_roundQuotient n 2048
  rw [nearest, lastPlace_of_ge hlow hhigh]
  omega

end Binary64

namespace Codec

theorem roundedInt64?_natural {n : UInt64} (h : 9223372036854775808 ≤ n.toNat) :
    roundedInt64? (.natural n) =
      if n.toNat ≤ 9223372036854776832 then some Int64.maxValue else none := by
  have hlt : (n.toNat : Int).natAbs < UInt64.size := by
    rw [Int.natAbs_natCast]
    exact n.toNat_lt
  have hdouble : (JsonNumber.natural n).toDouble.toInt? =
      some (Binary64.nearest n.toNat : Int) := by
    rw [JsonNumber.toDouble, Binary64.toInt?_ofInt hlt, Int.natAbs_natCast,
      Int.sign_eq_one_of_pos (by omega), Int.one_mul]
  have hge := Binary64.le_nearest h n.toNat_lt
  have hle := Binary64.nearest_le_iff h n.toNat_lt
  have hmin : Int64.minValue.toInt = -9223372036854775808 := by decide +kernel
  have hmax : Int64.maxValue.toInt = 9223372036854775807 := by decide +kernel
  simp only [roundedInt64?, integralBetween?, hdouble, Option.bind_some, hmin, hmax]
  by_cases hn : n.toNat ≤ 9223372036854776832
  · have hexact : Binary64.nearest n.toNat = 9223372036854775808 := by omega
    rw [if_pos hn, hexact]
    decide +kernel
  · have hout : ¬ (-9223372036854775808 ≤ (Binary64.nearest n.toNat : Int) ∧
        (Binary64.nearest n.toNat : Int) ≤ 9223372036854775807 + 1) := by omega
    rw [if_neg hn, if_neg hout, Option.map_none]

/-- The double of a negative integer is negative. -/
theorem roundedUInt64?_negative {n : Int64} (h : n.toInt < 0) :
    roundedUInt64? (.negative n) = none := by
  have hlow := n.le_toInt
  have hlt : n.toInt.natAbs < UInt64.size := by
    simp only [UInt64.size]
    omega
  have hpos := Binary64.nearest_pos (Int.natAbs_ne_zero.2 (Int.ne_of_lt h))
  have hout : ¬ (0 ≤ -(Binary64.nearest n.toInt.natAbs : Int) ∧
      -(Binary64.nearest n.toInt.natAbs : Int) ≤ (UInt64.size - 1 : Int) + 1) := by omega
  simp only [roundedUInt64?, integralBetween?, JsonNumber.toDouble, Binary64.toInt?_ofInt hlt,
    Int.sign_eq_neg_one_of_neg h, Int.neg_one_mul, Option.bind_some]
  rw [if_neg hout, Option.map_none]

/-! ## Machine words of integers -/

theorem int32OfInt?_eq_some_iff {n : Int} {a : Int32} : int32OfInt? n = some a ↔ a.toInt = n := by
  constructor
  · intro h
    simp only [int32OfInt?, Option.ite_none_right_eq_some, Option.some.injEq] at h
    obtain ⟨⟨hlow, hhigh⟩, rfl⟩ := h
    exact Int32.toInt_ofInt_of_le hlow (Int.lt_of_le_of_lt hhigh (by decide +kernel))
  · rintro rfl
    exact int32OfInt?_toInt a

theorem int64OfInt?_eq_some_iff {n : Int} {a : Int64} : int64OfInt? n = some a ↔ a.toInt = n := by
  constructor
  · intro h
    simp only [int64OfInt?, Option.ite_none_right_eq_some, Option.some.injEq] at h
    obtain ⟨⟨hlow, hhigh⟩, rfl⟩ := h
    exact Int64.toInt_ofInt_of_le hlow (Int.lt_of_le_of_lt hhigh (by decide +kernel))
  · rintro rfl
    exact int64OfInt?_toInt a

theorem uint32OfNat?_eq_some_iff {n : Nat} {a : UInt32} :
    uint32OfNat? n = some a ↔ a.toNat = n := by
  constructor
  · intro h
    simp only [uint32OfNat?, Option.ite_none_right_eq_some, Option.some.injEq] at h
    obtain ⟨hlt, rfl⟩ := h
    exact UInt32.toNat_ofNat_of_lt' hlt
  · rintro rfl
    exact uint32OfNat?_toNat a

theorem uint64OfNat?_eq_some_iff {n : Nat} {a : UInt64} :
    uint64OfNat? n = some a ↔ a.toNat = n := by
  constructor
  · intro h
    simp only [uint64OfNat?, Option.ite_none_right_eq_some, Option.some.injEq] at h
    obtain ⟨hlt, rfl⟩ := h
    exact UInt64.toNat_ofNat_of_lt' hlt
  · rintro rfl
    exact uint64OfNat?_toNat a

theorem int32OfInt?_isSome_iff {n : Int} :
    (int32OfInt? n).isSome = true ↔
      IntegerType.int32.least ≤ n ∧ n ≤ IntegerType.int32.greatest := by
  have hmin : Int32.minValue.toInt = IntegerType.int32.least := by decide +kernel
  have hmax : Int32.maxValue.toInt = IntegerType.int32.greatest := by decide +kernel
  rw [int32OfInt?, hmin, hmax, Option.isSome_ite]

theorem int64OfInt?_isSome_iff {n : Int} :
    (int64OfInt? n).isSome = true ↔
      IntegerType.int64.least ≤ n ∧ n ≤ IntegerType.int64.greatest := by
  have hmin : Int64.minValue.toInt = IntegerType.int64.least := by decide +kernel
  have hmax : Int64.maxValue.toInt = IntegerType.int64.greatest := by decide +kernel
  rw [int64OfInt?, hmin, hmax, Option.isSome_ite]

theorem uint32OfNat?_isSome_iff {n : Int} (h : 0 ≤ n) :
    (uint32OfNat? n.toNat).isSome = true ↔ n ≤ IntegerType.uint32.greatest := by
  rw [uint32OfNat?, Option.isSome_ite]
  simp only [IntegerType.greatest, UInt32.size]
  omega

theorem uint64OfNat?_isSome_iff {n : Int} (h : 0 ≤ n) :
    (uint64OfNat? n.toNat).isSome = true ↔ n ≤ IntegerType.uint64.greatest := by
  rw [uint64OfNat?, Option.isSome_ite]
  simp only [IntegerType.greatest, UInt64.size]
  omega

/-! ## Reading the four types -/

variable {json : Json} {minus : Bool} {n : Int}

theorem int64?_of_saturates (h : json.Saturates) : int64? json = some Int64.maxValue := by
  obtain ⟨n, rfl, hlow, hhigh⟩ := h
  have hout : int64OfInt? n.toNat = none := by
    rw [← Option.not_isSome_iff_eq_none, int64OfInt?_isSome_iff]
    simp only [IntegerType.greatest]
    omega
  simp only [int64?, hout, Option.none_or, roundedInt64?_natural hlow, if_pos hhigh]

theorem int64?_of_writes (h : json.Writes minus n) (hexact : ¬ json.Saturates) :
    int64? json = int64OfInt? n := by
  cases h with
  | natural n =>
    by_cases hn : n.toNat < 9223372036854775808
    · have hin : (int64OfInt? n.toNat).isSome = true := by
        rw [int64OfInt?_isSome_iff]
        simp only [IntegerType.least, IntegerType.greatest]
        omega
      rw [int64?, Option.or_of_isSome hin]
    · have hlarge : ¬ n.toNat ≤ 9223372036854776832 := fun hle => hexact ⟨n, rfl, by omega, hle⟩
      rw [int64?, roundedInt64?_natural (by omega), if_neg hlarge, Option.or_none]
  | @negative n hneg => exact (int64OfInt?_toInt n).symm
  | text hbefore hafter hnumeral =>
    rw [int64?, Text.trim_padded hbefore hafter hnumeral.ne_nil hnumeral.isBlank_eq_false,
      hnumeral.integer?_eq, Option.bind_some]

theorem uint64?_of_writes (h : json.Writes minus n) :
    uint64? json = if minus then none else uint64OfNat? n.toNat := by
  cases h with
  | natural n => exact (uint64OfNat?_toNat n).symm
  | negative hneg => exact roundedUInt64?_negative hneg
  | @text _ _ _ minus _ hbefore hafter hnumeral =>
    rw [uint64?, Text.trim_padded hbefore hafter hnumeral.ne_nil hnumeral.isBlank_eq_false,
      hnumeral.natural?_eq]
    cases minus <;> rfl

theorem int32?_of_writes (h : json.Writes minus n) : int32? json = int32OfInt? n := by
  by_cases hsat : json.Saturates
  · -- the greatest 64-bit integer is too large as well
    have hout : int32OfInt? n = none := by
      rw [← Option.not_isSome_iff_eq_none, int32OfInt?_isSome_iff]
      have hlarge := hsat.greatest_lt h
      simp only [IntegerType.greatest] at hlarge ⊢
      omega
    rw [int32?, int64?_of_saturates hsat, hout]
    decide +kernel
  · rw [int32?, int64?_of_writes h hsat]
    ext a
    simp only [Option.bind_eq_some_iff, int64OfInt?_eq_some_iff, int32OfInt?_eq_some_iff]
    constructor
    · rintro ⟨b, rfl, ha⟩
      exact ha
    · rintro rfl
      have hlow := a.le_toInt
      have hhigh := a.toInt_lt
      have hback := toInt_int64_ofInt (x := a.toInt) (by omega) (by omega)
      exact ⟨Int64.ofInt a.toInt, hback, hback.symm⟩

theorem uint32?_of_writes (h : json.Writes minus n) :
    uint32? json = if minus then none else uint32OfNat? n.toNat := by
  rw [uint32?, uint64?_of_writes h]
  cases minus with
  | true => rfl
  | false =>
    ext a
    simp only [Bool.false_eq_true, if_false, Option.bind_eq_some_iff, uint64OfNat?_eq_some_iff,
      uint32OfNat?_eq_some_iff]
    constructor
    · rintro ⟨b, hb, ha⟩
      exact ha.trans hb
    · intro ha
      have hlt : n.toNat < UInt64.size := ha ▸ Nat.lt_trans a.toNat_lt (by decide)
      exact ⟨UInt64.ofNat n.toNat, UInt64.toNat_ofNat_of_lt' hlt,
        by rw [UInt64.toNat_ofNat_of_lt' hlt, ha]⟩

/-- What is found is exact if it is found whenever the integer belongs to the type. -/
theorem readsExactly_expect {type : IntegerType} {α : Type} {found : Option α} {make : α → Value}
    (hadmits : type.Admits minus n ↔ found.isSome = true)
    (hvalue : ∀ a, found = some a → (make a).integer? = some (type, n)) (path : String) :
    type.ReadsExactly path json minus n
      (make <$> expect path type.description json found) := by
  rw [IntegerType.ReadsExactly]
  cases hfound : found with
  | none =>
    rw [if_neg (by rw [hadmits, hfound]; exact Bool.false_ne_true)]
    rfl
  | some a =>
    rw [if_pos (by rw [hadmits, hfound]; rfl)]
    exact ⟨make a, rfl, hvalue a hfound⟩

end Codec

namespace IntegerType

open Codec

variable {json : Json} {minus : Bool} {n : Int}

/-- Reads a machine integer of a type. -/
def ofJson (type : IntegerType) (path : String) (json : Json) : Except Error Value :=
  match type with
  | int32 => .int32 <$> expect path type.description json (int32? json)
  | uint32 => .uint32 <$> expect path type.description json (uint32? json)
  | int64 => .int64 <$> expect path type.description json (int64? json)
  | uint64 => .uint64 <$> expect path type.description json (uint64? json)

/-- A signed type admits an integer with any sign. -/
theorem admits_iff_of_neg {type : IntegerType} (h : type.least < 0) :
    type.Admits minus n ↔ type.least ≤ n ∧ n ≤ type.greatest :=
  ⟨fun ⟨hlow, hhigh, _⟩ => ⟨hlow, hhigh⟩, fun ⟨hlow, hhigh⟩ => ⟨hlow, hhigh, fun _ => h⟩⟩

/-- An unsigned type admits no minus sign. -/
theorem admits_iff_of_nonneg {type : IntegerType} (h : type.least = 0)
    (hn : minus = false → 0 ≤ n) :
    type.Admits minus n ↔ minus = false ∧ n ≤ type.greatest := by
  cases minus with
  | false => simp [Admits, h, hn rfl]
  | true => simp [Admits, h]

theorem readsExactly_int32 (h : json.Writes minus n) (path : String) :
    int32.ReadsExactly path json minus n (int32.ofJson path json) := by
  refine readsExactly_expect ?_ (fun a ha => ?_) path
  · rw [int32?_of_writes h, int32OfInt?_isSome_iff, admits_iff_of_neg (by decide)]
  · rw [int32?_of_writes h, int32OfInt?_eq_some_iff] at ha
    rw [Value.integer?, ha]

theorem readsExactly_int64 (h : json.Writes minus n) (hexact : ¬ json.Saturates) (path : String) :
    int64.ReadsExactly path json minus n (int64.ofJson path json) := by
  refine readsExactly_expect ?_ (fun a ha => ?_) path
  · rw [int64?_of_writes h hexact, int64OfInt?_isSome_iff, admits_iff_of_neg (by decide)]
  · rw [int64?_of_writes h hexact, int64OfInt?_eq_some_iff] at ha
    rw [Value.integer?, ha]

/-- What is found among unsigned integers is not looked for behind a minus sign. -/
theorem readsExactly_unsigned {type : IntegerType} (hzero : type.least = 0)
    (h : json.Writes minus n) {α : Type} {found : Option α} {make : α → Value}
    (hsome : 0 ≤ n → (found.isSome = true ↔ n ≤ type.greatest))
    (hvalue : 0 ≤ n → ∀ a, found = some a → (make a).integer? = some (type, n)) (path : String) :
    type.ReadsExactly path json minus n
      (make <$> expect path type.description json (if minus then none else found)) := by
  refine readsExactly_expect ?_ (fun a ha => ?_) path
  · rw [admits_iff_of_nonneg hzero h.nonneg]
    cases minus with
    | true => simp
    | false => simp [hsome (h.nonneg rfl)]
  · cases minus with
    | true => cases ha
    | false => exact hvalue (h.nonneg rfl) a ha

theorem readsExactly_uint32 (h : json.Writes minus n) (path : String) :
    uint32.ReadsExactly path json minus n (uint32.ofJson path json) := by
  rw [ofJson, uint32?_of_writes h]
  refine readsExactly_unsigned rfl h uint32OfNat?_isSome_iff (fun hn a ha => ?_) path
  rw [Value.integer?, uint32OfNat?_eq_some_iff.1 ha, Int.toNat_of_nonneg hn]

theorem readsExactly_uint64 (h : json.Writes minus n) (path : String) :
    uint64.ReadsExactly path json minus n (uint64.ofJson path json) := by
  rw [ofJson, uint64?_of_writes h]
  refine readsExactly_unsigned rfl h uint64OfNat?_isSome_iff (fun hn a ha => ?_) path
  rw [Value.integer?, uint64OfNat?_eq_some_iff.1 ha, Int.toNat_of_nonneg hn]

theorem ofJson_of_saturates (h : json.Saturates) (path : String) :
    int64.ofJson path json = .ok (.int64 Int64.maxValue) := by
  rw [ofJson, int64?_of_saturates h]
  rfl

theorem not_readsExactly_of_saturates (hsat : json.Saturates) (h : json.Writes minus n)
    (path : String) : ¬ int64.ReadsExactly path json minus n (int64.ofJson path json) := by
  have hlarge := hsat.greatest_lt h
  have hout : ¬ int64.Admits minus n := fun hadmits => absurd hadmits.2.1 (by omega)
  rw [ReadsExactly, if_neg hout, ofJson_of_saturates hsat]
  rintro ⟨⟩

end IntegerType

namespace Codec

variable {json : Json} {minus : Bool} {n : Int}

theorem value_eq_ofJson {kind : FieldKind} {type : IntegerType}
    (h : kind.integerType? = some type) (codec : Codec) (path : String) (json : Json) :
    (codec.jsonView json).value codec kind path = type.ofJson path json := by
  cases kind <;> cases h <;> simp only [JsonView.value, jsonView_json] <;> rfl

/-- A document that writes an integer is read as that integer, or refused if the integer does not
belong to the type of the field, unless it is one of the numbers just after the greatest signed
64-bit integer and the field holds such integers: these numbers are read as the greatest. -/
theorem value_exact_iff {kind : FieldKind} {type : IntegerType}
    (hkind : kind.integerType? = some type) (hjson : json.Writes minus n) (codec : Codec)
    (path : String) :
    (type.ReadsExactly path json minus n ((codec.jsonView json).value codec kind path) ↔
      ¬ (type = .int64 ∧ json.Saturates)) ∧
    (type = .int64 ∧ json.Saturates →
      IntegerType.int64.greatest < n ∧
      (codec.jsonView json).value codec kind path = .ok (.int64 Int64.maxValue)) := by
  rw [value_eq_ofJson hkind]
  refine ⟨⟨?_, fun hexact => ?_⟩, ?_⟩
  · rintro h ⟨rfl, hsat⟩
    exact IntegerType.not_readsExactly_of_saturates hsat hjson path h
  · cases type with
    | int32 => exact IntegerType.readsExactly_int32 hjson path
    | uint32 => exact IntegerType.readsExactly_uint32 hjson path
    | int64 => exact IntegerType.readsExactly_int64 hjson (fun hsat => hexact ⟨rfl, hsat⟩) path
    | uint64 => exact IntegerType.readsExactly_uint64 hjson path
  · rintro ⟨rfl, hsat⟩
    exact ⟨hsat.greatest_lt hjson, IntegerType.ofJson_of_saturates hsat path⟩

/-- The first number that is refused again. -/
theorem value_exact_grove :
    FieldKind.int64.integerType? = some .int64 ∧
    (Json.number (.natural 9223372036854776833)).Writes false 9223372036854776833 ∧
    IntegerType.int64.ReadsExactly "grove.Tree.club" (.number (.natural 9223372036854776833)) false
      9223372036854776833
      (((grove .double {}).jsonView (.number (.natural 9223372036854776833))).value
        (grove .double {}) .int64 "grove.Tree.club") := by
  have hwrites : (Json.number (.natural 9223372036854776833)).Writes false 9223372036854776833 :=
    .natural 9223372036854776833
  refine ⟨rfl, hwrites, (value_exact_iff rfl hwrites (grove .double {}) "grove.Tree.club").1.2 ?_⟩
  rintro ⟨-, n, hn, -, hhigh⟩
  cases hn
  exact absurd hhigh (by decide +kernel)

/-- The number after the greatest signed 64-bit integer is read as that integer. -/
theorem not_readsExactly_grove :
    ¬ IntegerType.int64.ReadsExactly "grove.Tree.club" (.number (.natural 9223372036854775808))
      false 9223372036854775808
      (((grove .double {}).jsonView (.number (.natural 9223372036854775808))).value
        (grove .double {}) .int64 "grove.Tree.club") := by
  have hsat : (Json.number (.natural 9223372036854775808)).Saturates :=
    ⟨_, rfl, by decide +kernel, by decide +kernel⟩
  rw [value_eq_ofJson rfl]
  exact IntegerType.not_readsExactly_of_saturates hsat (.natural 9223372036854775808) _

end Codec
end ProtoStub
