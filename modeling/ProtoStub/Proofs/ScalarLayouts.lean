import Mathlib
import ProtoStub.Proofs.Decision
import ProtoStub.Proofs.JsonReading

/-!
# The arithmetic of single values

What travels for a single value is an integer or a body of bytes (`content?`), in one of four
layouts: the integer modulo 2^64 as a variable-length integer, its zigzag code as one, the integer
in bytes of a fixed number, or the body with its length in front (`Layout.LaidOut`). The writer
keeps to the layout of the kind, and its bytes are taken for the value again, for a value of an enum
in canonical form.

A variable-length integer can be wider than the values of a kind. It is then read as the one value
that is congruent to it, or whose zigzag code is (`Reduces`).
-/

namespace ProtoStub

/-! ## Layouts -/

namespace Wire

/-- How the single values of a kind are laid out. -/
inductive Layout where
  /-- A variable-length integer. -/
  | varint
  /-- A zigzag code as a variable-length integer. -/
  | zigzag
  /-- As many bytes. -/
  | fixed (width : Nat)
  /-- A length and as many bytes. -/
  | body

/-- What travels for a single value. -/
inductive Content where
  | integer (n : Int)
  | bytes (bs : List UInt8)

/-- The place of an integer in the sequence 0, -1, 1, -2, 2, …. -/
def signsInTurn (n : Int) : Int := if 0 ≤ n then 2 * n else -2 * n - 1

/-- The bytes are what travels in the layout. -/
def Layout.LaidOut : Layout → Content → List UInt8 → Prop
  | varint, .integer n, bytes => ∃ w : UInt64, (w.toNat : Int) = n % 2 ^ 64 ∧ bytes = encodeVarint w
  | zigzag, .integer n, bytes =>
    ∃ w : UInt64, (w.toNat : Int) = signsInTurn n ∧ bytes = encodeVarint w
  | fixed width, .integer n, bytes =>
    bytes.length = width ∧ ∀ i < width, ((bytes.getD i 0).toNat : Int) = n / 256 ^ i % 256
  | body, .bytes content, bytes =>
    ∃ w : UInt64, w.toNat = content.length ∧ bytes = encodeVarint w ++ content
  | _, _, _ => False

theorem zigzag_eq (n : Int) : (zigzag n : Int) = signsInTurn n := by
  unfold zigzag signsInTurn
  split <;> omega

theorem laidOut_varint {w : UInt64} {n : Int} (h : (w.toNat : Int) = n % 2 ^ 64) :
    Layout.varint.LaidOut (.integer n) (encodeVarint w) :=
  ⟨w, h, rfl⟩

theorem laidOut_varint_ofInt (n : Int) :
    Layout.varint.LaidOut (.integer n) (encodeVarint (UInt64.ofInt n)) :=
  laidOut_varint (toNat_uint64_ofInt n)

/-- A number that fits into 64 bits is written as it is. -/
theorem laidOut_varint_toNat (w : UInt64) :
    Layout.varint.LaidOut (.integer w.toNat) (encodeVarint w) := by
  have hw := w.toNat_lt
  exact laidOut_varint (by omega)

theorem laidOut_zigzag {n : Int} (hlow : -9223372036854775808 ≤ n)
    (hhigh : n < 9223372036854775808) :
    Layout.zigzag.LaidOut (.integer n) (encodeVarint (UInt64.ofNat (zigzag n))) := by
  have hlt : zigzag n < UInt64.size := zigzag_lt 9223372036854775808 hlow hhigh
  exact ⟨_, by rw [UInt64.toNat_ofNat_of_lt' hlt, zigzag_eq], rfl⟩

theorem littleEndian_getD {count i : Nat} (n : Nat) (h : i < count) :
    ((littleEndian count n).getD i 0).toNat = n / 256 ^ i % 256 := by
  induction count generalizing n i with
  | zero => exact absurd h (Nat.not_lt_zero i)
  | succ count ih =>
    cases i with
    | zero =>
      rw [littleEndian, List.getD_cons_zero, pow_zero, Nat.div_one]
      exact UInt8.toNat_ofNat_of_lt' (Nat.mod_lt n (by decide))
    | succ i =>
      rw [littleEndian, List.getD_cons_succ, ih (n / 256) (Nat.lt_of_succ_lt_succ h),
        Nat.div_div_eq_div_mul, ← pow_succ']

/-- Of an integer only the lower bytes are written, and these hang on it modulo their number. -/
theorem laidOut_fixed {width m : Nat} {n : Int} (h : (m : Int) = n % 256 ^ width) :
    (Layout.fixed width).LaidOut (.integer n) (littleEndian width m) := by
  refine ⟨length_littleEndian width m, fun i hi => ?_⟩
  obtain ⟨more, rfl⟩ : ∃ more, width = i + (1 + more) := ⟨width - i - 1, by omega⟩
  have hpos : (256 ^ i : Int) ≠ 0 := pow_ne_zero i (by decide)
  have hn : n = (m : Int) + 256 ^ i * (256 * (256 ^ more * (n / 256 ^ (i + (1 + more))))) := by
    have := Int.emod_add_mul_ediv n (256 ^ (i + (1 + more)))
    rw [← h, pow_add, pow_add, pow_one] at this
    rw [pow_add, pow_add, pow_one]
    linarith
  have hquotient : n / 256 ^ i =
      (m : Int) / 256 ^ i + 256 * (256 ^ more * (n / 256 ^ (i + (1 + more)))) := by
    conv_lhs => rw [hn]
    exact Int.add_mul_ediv_left _ _ hpos
  rw [littleEndian_getD m hi, hquotient, Int.add_mul_emod_self_left]
  push_cast
  rfl

theorem laidOut_fixed_word32 (n : UInt32) :
    (Layout.fixed 4).LaidOut (.integer n.toNat) (littleEndian 4 n.toNat) := by
  have hn := n.toNat_lt
  exact laidOut_fixed (by omega)

theorem laidOut_fixed_word64 (n : UInt64) :
    (Layout.fixed 8).LaidOut (.integer n.toNat) (littleEndian 8 n.toNat) := by
  have hn := n.toNat_lt
  exact laidOut_fixed (by omega)

theorem laidOut_body {content : List UInt8} (h : content.length < 2 ^ 64) :
    Layout.body.LaidOut (.bytes content) (lengthPrefixed content) :=
  ⟨UInt64.ofNat content.length, UInt64.toNat_ofNat_of_lt' h, rfl⟩

end Wire

/-- The layout of the single values of a kind; messages and groups have none. -/
def FieldKind.layout? : FieldKind → Option Wire.Layout
  | int32 | int64 | uint32 | uint64 | bool | enum _ => some .varint
  | sint32 | sint64 => some .zigzag
  | fixed32 | sfixed32 | float => some (.fixed 4)
  | fixed64 | sfixed64 | double => some (.fixed 8)
  | string | bytes => some .body
  | message _ | group => none

namespace EnumDecl

/-- The number of a value of an enum. -/
def number? (e : EnumDecl) : EnumValue → Option Int32
  | .named name => e.numberOf? name
  | .unknown number => some number

/-- The canonical value with a number: the first name of the number, or the number itself. -/
def valueOf (e : EnumDecl) (number : Int32) : EnumValue :=
  match e.nameOf? number with
  | some name => .named name
  | none => .unknown number

theorem Numbered.exists_number {e : EnumDecl} {v : EnumValue} (h : e.Numbered v) :
    ∃ number, e.number? v = some number := by
  cases v with
  | named name => exact Option.isSome_iff_exists.1 h
  | unknown number => exact ⟨number, rfl⟩

end EnumDecl

namespace Codec

open Wire

variable {codec : Codec}

theorem numberOfEnum_of_number? {enumName : String} {e : EnumDecl} {v : EnumValue} {number : Int32}
    (h : codec.enumeration enumName = .ok e) (hnumber : e.number? v = some number)
    (path : String) : codec.numberOfEnum enumName path v = .ok number := by
  cases v with
  | named name =>
    rw [EnumDecl.number?] at hnumber
    simp only [numberOfEnum, h, bind, Except.bind, hnumber]
    rfl
  | unknown n =>
    cases hnumber
    rfl

theorem enumOfNumber_eq_valueOf {enumName : String} {e : EnumDecl}
    (h : codec.enumeration enumName = .ok e) (number : Int32) :
    codec.enumOfNumber enumName number = .ok (e.valueOf number) :=
  enumOfNumber_eq h number

/-! ## Writing and reading back -/

/-- What travels for a single value of a kind. An enum's value travels by its number, and a floating
point number by its bits. -/
def content? (codec : Codec) (kind : FieldKind) : Value → Option Content
  | .int32 n => some (.integer n.toInt)
  | .int64 n => some (.integer n.toInt)
  | .uint32 n => some (.integer n.toNat)
  | .uint64 n => some (.integer n.toNat)
  | .bool b => some (.integer (if b then 1 else 0))
  | .double x => some (.integer x.bits.toNat)
  | .float x => some (.integer x.bits.toNat)
  | .string s => some (.bytes (Text.utf8Encode s))
  | .bytes bs => some (.bytes bs)
  | .enum v =>
    match kind with
    | .enum target =>
      ((codec.enumeration target.fqName).toOption.bind (·.number? v)).map fun n => .integer n.toInt
    | _ => none
  | .message _ | .list _ | .map _ => none

/-- The bytes lay a value out as its kind asks. -/
def Laid (codec : Codec) (kind : FieldKind) (v : Value) (bytes : List UInt8) : Prop :=
  ∃ layout content, kind.layout? = some layout ∧ codec.content? kind v = some content ∧
    layout.LaidOut content bytes

/-- A single value as it is read back: an enum's value in canonical form, any other as it is. -/
def canonicalForm (codec : Codec) (kind : FieldKind) (v : Value) : Value :=
  match kind, v with
  | .enum target, .enum x =>
    match codec.enumeration target.fqName with
    | .ok e => .enum (((e.number? x).map e.valueOf).getD x)
    | .error _ => v
  | _, _ => v

theorem content?_enum {target : TypeRef} {e : EnumDecl} {v : EnumValue} {number : Int32}
    (h : codec.enumeration target.fqName = .ok e) (hnumber : e.number? v = some number) :
    codec.content? (.enum target) (.enum v) = some (.integer number.toInt) := by
  simp only [content?, h, Except.toOption, Option.bind_some, hnumber, Option.map_some]

theorem canonicalForm_enum {target : TypeRef} {e : EnumDecl} {v : EnumValue} {number : Int32}
    (h : codec.enumeration target.fqName = .ok e) (hnumber : e.number? v = some number) :
    codec.canonicalForm (.enum target) (.enum v) = .enum (e.valueOf number) := by
  simp only [canonicalForm, h, hnumber, Option.map_some, Option.getD_some]

/-- The writer keeps to the layout of the kind. -/
theorem laid_of_scalarBytes {kind : FieldKind} {v : Value} (h : Fits codec EnumDecl.Numbered kind v)
    {path : String} {bytes : List UInt8} (hbytes : codec.scalarBytes v kind path = .ok bytes)
    (hlength : bytes.length < 2 ^ 64) : codec.Laid kind v bytes := by
  have hbody : ∀ content, bytes = lengthPrefixed content → content.length < 2 ^ 64 := by
    rintro content rfl
    rw [lengthPrefixed, List.length_append] at hlength
    omega
  cases h with
  | @enum target e v hdeclared hvalue =>
    obtain ⟨number, hnumber⟩ := hvalue.exists_number
    simp only [scalarBytes, numberOfEnum_of_number? hdeclared hnumber] at hbytes
    cases hbytes
    exact ⟨_, _, rfl, content?_enum hdeclared hnumber, laidOut_varint_ofInt number.toInt⟩
  | double x =>
    cases hbytes
    exact ⟨_, _, rfl, rfl, laidOut_fixed_word64 x.bits⟩
  | float x =>
    cases hbytes
    exact ⟨_, _, rfl, rfl, laidOut_fixed_word32 x.bits⟩
  | int32 n | int64 n =>
    cases hbytes
    exact ⟨_, _, rfl, rfl, laidOut_varint_ofInt n.toInt⟩
  | uint32 n =>
    cases hbytes
    have hn := n.toNat_lt
    refine ⟨_, _, rfl, rfl, laidOut_varint ?_⟩
    rw [UInt64.toNat_ofNat']
    omega
  | uint64 n =>
    cases hbytes
    exact ⟨_, _, rfl, rfl, laidOut_varint_toNat n⟩
  | sint32 n =>
    cases hbytes
    have hlow := n.le_toInt
    have hhigh := n.toInt_lt
    exact ⟨_, _, rfl, rfl, laidOut_zigzag (by omega) (by omega)⟩
  | sint64 n =>
    cases hbytes
    exact ⟨_, _, rfl, rfl, laidOut_zigzag n.le_toInt n.toInt_lt⟩
  | fixed32 n =>
    cases hbytes
    exact ⟨_, _, rfl, rfl, laidOut_fixed_word32 n⟩
  | fixed64 n =>
    cases hbytes
    exact ⟨_, _, rfl, rfl, laidOut_fixed_word64 n⟩
  | sfixed32 n =>
    cases hbytes
    exact ⟨_, _, rfl, rfl, laidOut_fixed (toNat_uint32_ofInt n.toInt)⟩
  | sfixed64 n =>
    cases hbytes
    exact ⟨_, _, rfl, rfl, laidOut_fixed (toNat_uint64_ofInt n.toInt)⟩
  | bool b =>
    cases hbytes
    refine ⟨_, _, rfl, rfl, laidOut_varint ?_⟩
    cases b <;> decide
  | string s | bytes bs =>
    cases hbytes
    exact ⟨_, _, rfl, rfl, laidOut_body (hbody _ rfl)⟩

/-- A value is written, and the bytes are taken for its canonical form. -/
theorem takes_canonicalForm {kind : FieldKind} {v : Value}
    (h : Fits codec EnumDecl.Numbered kind v) (path : String) :
    ∃ bytes, codec.scalarBytes v kind path = .ok bytes ∧ (bytes.length < 2 ^ 64 →
      ∀ path', Takes (codec.readScalar kind path') bytes (codec.canonicalForm kind v)) := by
  cases h with
  | @enum target e v hdeclared hvalue =>
    obtain ⟨number, hnumber⟩ := hvalue.exists_number
    refine ⟨encodeVarint (UInt64.ofInt number.toInt), ?_, fun _ path' offset more => ?_⟩
    · simp only [scalarBytes, numberOfEnum_of_number? hdeclared hnumber]
    · simp only [readScalar, takes_varint (UInt64.ofInt number.toInt) offset more,
        int32_of_uint64_ofInt, enumOfNumber_eq_valueOf hdeclared,
        canonicalForm_enum hdeclared hnumber]
      rfl
  -- Which values of an enum count says nothing of the other kinds.
  | _ =>
    exact @scalarBytes_takes_of_allowed codec (fun _ _ => False) (fun _ _ _ _ hv => hv.elim) _ _
      (by constructor) path

/-! ## Reading wider numbers -/

/-- The values of a kind that a variable-length integer stands for, which may be wider than they
are. -/
inductive Reduces (codec : Codec) (w : UInt64) : FieldKind → Value → Prop
  | int32 {n : Int32} (congruent : n.toInt ≡ w.toNat [ZMOD 2 ^ 32]) :
      Reduces codec w .int32 (.int32 n)
  | uint32 {n : UInt32} (congruent : n.toNat ≡ w.toNat [ZMOD 2 ^ 32]) :
      Reduces codec w .uint32 (.uint32 n)
  | enum {target : TypeRef} {e : EnumDecl} {number : Int32}
      (declared : codec.enumeration target.fqName = .ok e)
      (congruent : number.toInt ≡ w.toNat [ZMOD 2 ^ 32]) :
      Reduces codec w (.enum target) (.enum (e.valueOf number))
  | int64 {n : Int64} (congruent : n.toInt ≡ w.toNat [ZMOD 2 ^ 64]) :
      Reduces codec w .int64 (.int64 n)
  | uint64 {n : UInt64} (congruent : n.toNat ≡ w.toNat [ZMOD 2 ^ 64]) :
      Reduces codec w .uint64 (.uint64 n)
  | sint32 {n : Int32} (code : signsInTurn n.toInt = w.toNat % 2 ^ 32) :
      Reduces codec w .sint32 (.int32 n)
  | sint64 {n : Int64} (code : signsInTurn n.toInt = w.toNat) : Reduces codec w .sint64 (.int64 n)
  | bool {b : Bool} (nonzero : b = true ↔ w ≠ 0) : Reduces codec w .bool (.bool b)

theorem eq_int32_ofInt_iff {x : Int} {n : Int32} :
    n = Int32.ofInt x ↔ n.toInt ≡ x [ZMOD 2 ^ 32] := by
  have hlow := n.le_toInt
  have hhigh := n.toInt_lt
  rw [← Int32.toInt_inj, Int32.toInt_ofInt]
  simp only [Int.ModEq, Int.bmod, Int32.size]
  omega

theorem eq_int64_ofInt_iff {x : Int} {n : Int64} :
    n = Int64.ofInt x ↔ n.toInt ≡ x [ZMOD 2 ^ 64] := by
  have hlow := n.le_toInt
  have hhigh := n.toInt_lt
  rw [← Int64.toInt_inj, Int64.toInt_ofInt]
  simp only [Int.ModEq, Int.bmod, Int64.size]
  omega

theorem eq_uint32_ofNat_iff {x : Nat} {n : UInt32} :
    n = UInt32.ofNat x ↔ n.toNat ≡ x [ZMOD 2 ^ 32] := by
  have hn := n.toNat_lt
  rw [← UInt32.toNat_inj, UInt32.toNat_ofNat', Int.ModEq]
  omega

theorem eq_uint64_iff {w n : UInt64} : n = w ↔ n.toNat ≡ w.toNat [ZMOD 2 ^ 64] := by
  have hw := w.toNat_lt
  have hn := n.toNat_lt
  rw [← UInt64.toNat_inj, Int.ModEq]
  omega

theorem eq_unzigzag_iff {n : Int} {k : Nat} : n = unzigzag k ↔ signsInTurn n = k := by
  rw [← zigzag_eq, Nat.cast_inj]
  constructor
  · rintro rfl
    exact zigzag_unzigzag k
  · rintro rfl
    exact (unzigzag_zigzag n).symm

theorem eq_unzigzag32_iff {w : UInt64} {n : Int32} :
    n = unzigzag32 w ↔ signsInTurn n.toInt = w.toNat % 2 ^ 32 := by
  have hrange : ∀ k < UInt32.size, (Int32.ofInt (unzigzag k)).toInt = unzigzag k := by
    intro k hk
    rw [Int32.toInt_ofInt, unzigzag]
    simp only [Int.bmod, Int32.size, UInt32.size] at hk ⊢
    split <;> omega
  rw [← Int32.toInt_inj, unzigzag32, hrange _ (Nat.mod_lt _ (by decide)), eq_unzigzag_iff]
  rfl

theorem eq_unzigzag64_iff {w : UInt64} {n : Int64} :
    n = unzigzag64 w ↔ signsInTurn n.toInt = w.toNat := by
  have hrange : ∀ k < UInt64.size, (Int64.ofInt (unzigzag k)).toInt = unzigzag k := by
    intro k hk
    rw [Int64.toInt_ofInt, unzigzag]
    simp only [Int.bmod, Int64.size, UInt64.size] at hk ⊢
    split <;> omega
  rw [← Int64.toInt_inj, unzigzag64, hrange _ w.toNat_lt, eq_unzigzag_iff]

/-- A variable-length integer is read as the one value of the kind that it stands for. -/
theorem exists_reduces {kind : FieldKind} (hindexed : codec.Indexed kind)
    (hkind : kind.wireType = .varint) {c rest : Cursor} {w : UInt64}
    (h : c.varint = .ok (w, rest)) (path : String) :
    ∃ v, codec.readScalar kind path c = .ok (v, rest) ∧
      ∀ v', codec.Reduces w kind v' ↔ v' = v := by
  cases kind with
  | int32 =>
    refine ⟨.int32 (Int32.ofInt w.toNat), by rw [readScalar, h]; rfl, fun v' => ⟨?_, ?_⟩⟩
    · intro hv
      cases hv with
      | int32 hn => rw [eq_int32_ofInt_iff.2 hn]
    · rintro rfl
      exact .int32 (eq_int32_ofInt_iff.1 rfl)
  | int64 =>
    refine ⟨.int64 (Int64.ofInt w.toNat), by rw [readScalar, h]; rfl, fun v' => ⟨?_, ?_⟩⟩
    · intro hv
      cases hv with
      | int64 hn => rw [eq_int64_ofInt_iff.2 hn]
    · rintro rfl
      exact .int64 (eq_int64_ofInt_iff.1 rfl)
  | uint32 =>
    refine ⟨.uint32 (UInt32.ofNat w.toNat), by rw [readScalar, h]; rfl, fun v' => ⟨?_, ?_⟩⟩
    · intro hv
      cases hv with
      | uint32 hn => rw [eq_uint32_ofNat_iff.2 hn]
    · rintro rfl
      exact .uint32 (eq_uint32_ofNat_iff.1 rfl)
  | uint64 =>
    refine ⟨.uint64 w, by rw [readScalar, h]; rfl, fun v' => ⟨?_, ?_⟩⟩
    · intro hv
      cases hv with
      | uint64 hn => rw [eq_uint64_iff.2 hn]
    · rintro rfl
      exact .uint64 (eq_uint64_iff.1 rfl)
  | sint32 =>
    refine ⟨.int32 (unzigzag32 w), by rw [readScalar, h]; rfl, fun v' => ⟨?_, ?_⟩⟩
    · intro hv
      cases hv with
      | sint32 hn => rw [eq_unzigzag32_iff.2 hn]
    · rintro rfl
      exact .sint32 (eq_unzigzag32_iff.1 rfl)
  | sint64 =>
    refine ⟨.int64 (unzigzag64 w), by rw [readScalar, h]; rfl, fun v' => ⟨?_, ?_⟩⟩
    · intro hv
      cases hv with
      | sint64 hn => rw [eq_unzigzag64_iff.2 hn]
    · rintro rfl
      exact .sint64 (eq_unzigzag64_iff.1 rfl)
  | bool =>
    refine ⟨.bool (w ≠ 0), by rw [readScalar, h]; rfl, fun v' => ⟨?_, ?_⟩⟩
    · intro hv
      cases hv with
      | bool hb => rw [Bool.eq_iff_iff.2 (hb.trans decide_eq_true_iff.symm)]
    · rintro rfl
      exact .bool decide_eq_true_iff
  | enum target =>
    obtain ⟨e, hdeclared⟩ := hindexed
    refine ⟨.enum (e.valueOf (Int32.ofInt w.toNat)), ?_, fun v' => ⟨?_, ?_⟩⟩
    · simp only [readScalar, h, enumOfNumber_eq_valueOf hdeclared]
      rfl
    · intro hv
      cases hv with
      | enum hfound hnumber =>
        rw [hdeclared] at hfound
        cases hfound
        rw [eq_int32_ofInt_iff.2 hnumber]
    · rintro rfl
      exact .enum hdeclared (eq_int32_ofInt_iff.1 rfl)
  | _ => cases hkind

/-- The kind of the kinds of trees. -/
def groveKindKind : FieldKind := .enum (groveRef "Kind" .enum)

/-- Sacks of seeds, whose kinds another file declares. -/
def sackFiles : List FileDescriptor :=
  [{ name := some "seed.proto", package := "seed", dialect := "proto3"
     enums := [{ name := "Kind", values := [⟨"UNKNOWN", 0⟩] }] },
    { name := some "sack.proto", package := "sack", dialect := "proto2"
      dependencies := ["seed.proto"]
      messages := [{ name := "Sack", fields := [
        { name := "kind", number := 1, type := .enum, typeName := ".seed.Kind" }] }] }]

/-- The kind of the kinds of seeds. -/
def seedKindKind : FieldKind :=
  .enum ⟨"seed.Kind", "seed.proto", "seed", "Kind", .enum, "Kind"⟩

/-- The codec of the sacks alone. -/
def sacks : Codec :=
  { messages := [
      { name := "Sack", fqName := "sack.Sack", shortName := "Sack", isMapEntry := false
        fields := [.plain { groveField "kind" "kind" 1 seedKindKind false none with
          optional := true, initial := .unset }]
        comment := none }]
    enums := [] }

theorem resolved_sacks : sacks.Resolved :=
  resolved_of_build sackFiles ["sack.proto"] .javaScript {} (by cbv)

end Codec
end ProtoStub
