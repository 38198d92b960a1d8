import Mathlib.Data.List.Nodup
import ProtoStub.Codec.Encode
import ProtoStub.Proofs.Numerals
import ProtoStub.Proofs.Utf8
import ProtoStub.Proofs.WireValues

/-!
# Single values read back

A value that fits the kind of its field (`Fits`) is written without a fault, and the bytes are
taken for the value again, whatever follows them (`scalarBytes_takes`). Values of enums are
written as numbers and so only read back in canonical form: a number goes by the first name
that is declared for it. The keys of maps travel as single values too, and their texts stand
for them (`keyOfText?_textOfKey`).
-/

namespace ProtoStub

/-! ## Enums -/

/-- The canonical values of an enum: the first name of a declared number, and any number that
is not declared. -/
def EnumDecl.Canonical (e : EnumDecl) : EnumValue → Prop
  | .named name => ∃ number, e.nameOf? number = some name
  | .unknown number => e.nameOf? number = none

/-- No two values of an enum have the same name. -/
def EnumDecl.DistinctNames (e : EnumDecl) : Prop := (e.values.map (·.name)).Nodup

/-- Where keys are distinct, an item is found by its key. -/
theorem find?_of_nodup_map {α β : Type} [DecidableEq β] {key : α → β} {xs : List α}
    (h : (xs.map key).Nodup) {x : α} (hx : x ∈ xs) : xs.find? (key · = key x) = some x := by
  cases hfind : xs.find? (key · = key x) with
  | none => exact absurd (List.find?_eq_none.1 hfind x hx) (by simp)
  | some y =>
    have hkey : key y = key x := by simpa using List.find?_some hfind
    rw [List.inj_on_of_nodup_map h (List.mem_of_find?_eq_some hfind) hx hkey]

theorem EnumDecl.numberOf?_of_nameOf? {e : EnumDecl} (h : e.DistinctNames) {number : Int32}
    {name : String} (hname : e.nameOf? number = some name) : e.numberOf? name = some number := by
  obtain ⟨v, hv, rfl⟩ := Option.map_eq_some_iff.1 hname
  have hmem := List.mem_of_find?_eq_some hv
  have hnumber : v.number = number := by simpa using List.find?_some hv
  rw [EnumDecl.numberOf?, find?_of_nodup_map h hmem, Option.map_some, hnumber]

namespace Codec

theorem enumOfNumber_eq {codec : Codec} {enumName : String} {e : EnumDecl}
    (h : codec.enumeration enumName = .ok e) (number : Int32) :
    codec.enumOfNumber enumName number =
      .ok (match e.nameOf? number with | some name => .named name | none => .unknown number) := by
  rw [enumOfNumber, h]
  rfl

/-- A number names a canonical value. -/
theorem canonical_of_enumOfNumber {codec : Codec} {enumName : String} {e : EnumDecl}
    {number : Int32} {v : EnumValue} (h : codec.enumeration enumName = .ok e)
    (hv : codec.enumOfNumber enumName number = .ok v) : e.Canonical v := by
  rw [enumOfNumber_eq h] at hv
  cases hv
  cases hname : e.nameOf? number with
  | none => exact hname
  | some name => exact ⟨number, hname⟩

/-- A canonical value is found again under its number. -/
theorem exists_number_of_canonical {codec : Codec} {enumName : String} {e : EnumDecl}
    {v : EnumValue} (h : codec.enumeration enumName = .ok e) (hnames : e.DistinctNames)
    (hv : e.Canonical v) (path : String) :
    ∃ number, codec.numberOfEnum enumName path v = .ok number ∧
      codec.enumOfNumber enumName number = .ok v := by
  cases v with
  | named name =>
    obtain ⟨number, hname⟩ := hv
    refine ⟨number, ?_, ?_⟩
    · simp only [numberOfEnum, h, bind, Except.bind,
        EnumDecl.numberOf?_of_nameOf? hnames hname]
      rfl
    · rw [enumOfNumber_eq h, hname]
  | unknown number =>
    refine ⟨number, rfl, ?_⟩
    rw [enumOfNumber_eq h, show e.nameOf? number = none from hv]

/-! ## Values of a kind -/

/-- The single values that a field of a kind can hold, messages apart; `allowed` says which
values of an enum count. -/
inductive Fits (codec : Codec) (allowed : EnumDecl → EnumValue → Prop) : FieldKind → Value → Prop
  | double (x : Binary64) : Fits codec allowed .double (.double x)
  | float (x : Binary32) : Fits codec allowed .float (.float x)
  | int32 (n : Int32) : Fits codec allowed .int32 (.int32 n)
  | int64 (n : Int64) : Fits codec allowed .int64 (.int64 n)
  | uint32 (n : UInt32) : Fits codec allowed .uint32 (.uint32 n)
  | uint64 (n : UInt64) : Fits codec allowed .uint64 (.uint64 n)
  | sint32 (n : Int32) : Fits codec allowed .sint32 (.int32 n)
  | sint64 (n : Int64) : Fits codec allowed .sint64 (.int64 n)
  | fixed32 (n : UInt32) : Fits codec allowed .fixed32 (.uint32 n)
  | fixed64 (n : UInt64) : Fits codec allowed .fixed64 (.uint64 n)
  | sfixed32 (n : Int32) : Fits codec allowed .sfixed32 (.int32 n)
  | sfixed64 (n : Int64) : Fits codec allowed .sfixed64 (.int64 n)
  | bool (b : Bool) : Fits codec allowed .bool (.bool b)
  | string (s : String) : Fits codec allowed .string (.string s)
  | bytes (bs : List UInt8) : Fits codec allowed .bytes (.bytes bs)
  | enum {target : TypeRef} {e : EnumDecl} {v : EnumValue}
      (declared : codec.enumeration target.fqName = .ok e) (value : allowed e v) :
      Fits codec allowed (.enum target) (.enum v)

theorem Fits.mono {codec : Codec} {allowed allowed' : EnumDecl → EnumValue → Prop}
    {kind : FieldKind} {v : Value} (h : Fits codec allowed kind v)
    (himp : ∀ e x, allowed e x → allowed' e x) : Fits codec allowed' kind v := by
  cases h with
  | enum hdeclared hvalue => exact .enum hdeclared (himp _ _ hvalue)
  | _ => constructor

/-- The codec tells the names of every enum apart. -/
def DistinctEnumNames (codec : Codec) : Prop := ∀ e ∈ codec.enums, e.DistinctNames

theorem mem_of_enumeration {codec : Codec} {name : String} {e : EnumDecl}
    (h : codec.enumeration name = .ok e) : e ∈ codec.enums := by
  simp only [enumeration] at h
  split at h
  next hfind =>
    cases h
    exact List.mem_of_find?_eq_some hfind
  · cases h

/-- The codec tells the names of the enum that a kind refers to apart. -/
def NamesApart (codec : Codec) (kind : FieldKind) : Prop :=
  ∀ target e, kind = .enum target → codec.enumeration target.fqName = .ok e → e.DistinctNames

theorem DistinctEnumNames.namesApart {codec : Codec} (h : codec.DistinctEnumNames)
    (kind : FieldKind) : codec.NamesApart kind :=
  fun _ e _ he => h e (mem_of_enumeration he)

/-! ## Writing and reading back -/

open Wire

/-- A value that fits its kind is written, and the bytes are taken for the value, if the values of
enums are found again under their numbers. -/
theorem scalarBytes_takes_of_allowed {codec : Codec} {allowed : EnumDecl → EnumValue → Prop}
    (hallowed : ∀ enumName e v, codec.enumeration enumName = .ok e → allowed e v → ∀ path,
      ∃ number, codec.numberOfEnum enumName path v = .ok number ∧
        codec.enumOfNumber enumName number = .ok v)
    {kind : FieldKind} {v : Value} (h : Fits codec allowed kind v) (path : String) :
    ∃ bs, codec.scalarBytes v kind path = .ok bs ∧
      (bs.length < UInt64.size → ∀ path', Takes (codec.readScalar kind path') bs v) := by
  cases h with
  | double x =>
    refine ⟨_, rfl, fun _ path' => ?_⟩
    exact (takes_word64 x.bits).map fun n => Value.double ⟨n⟩
  | float x =>
    refine ⟨_, rfl, fun _ path' => ?_⟩
    exact (takes_word32 x.bits).map fun n => Value.float ⟨n⟩
  | int32 n =>
    refine ⟨_, rfl, fun _ path' => ?_⟩
    have := (takes_varint (UInt64.ofInt n.toInt)).map fun v => Value.int32 (Int32.ofInt v.toNat)
    rwa [int32_of_uint64_ofInt] at this
  | int64 n =>
    refine ⟨_, rfl, fun _ path' => ?_⟩
    have := (takes_varint (UInt64.ofInt n.toInt)).map fun v => Value.int64 (Int64.ofInt v.toNat)
    rwa [int64_of_uint64_ofInt] at this
  | uint32 n =>
    refine ⟨_, rfl, fun _ path' => ?_⟩
    have hn : (UInt64.ofNat n.toNat).toNat = n.toNat :=
      UInt64.toNat_ofNat_of_lt' (Nat.lt_trans n.toNat_lt (by decide))
    have := (takes_varint (UInt64.ofNat n.toNat)).map fun v =>
      Value.uint32 (UInt32.ofNat v.toNat)
    rwa [hn, UInt32.ofNat_toNat] at this
  | uint64 n =>
    refine ⟨_, rfl, fun _ path' => ?_⟩
    exact (takes_varint n).map Value.uint64
  | sint32 n =>
    refine ⟨_, rfl, fun _ path' => ?_⟩
    have := (takes_varint (zigzag32 n)).map fun v => Value.int32 (unzigzag32 v)
    rwa [unzigzag32_zigzag32] at this
  | sint64 n =>
    refine ⟨_, rfl, fun _ path' => ?_⟩
    have := (takes_varint (zigzag64 n)).map fun v => Value.int64 (unzigzag64 v)
    rwa [unzigzag64_zigzag64] at this
  | fixed32 n =>
    refine ⟨_, rfl, fun _ path' => ?_⟩
    exact (takes_word32 n).map Value.uint32
  | fixed64 n =>
    refine ⟨_, rfl, fun _ path' => ?_⟩
    exact (takes_word64 n).map Value.uint64
  | sfixed32 n =>
    refine ⟨_, rfl, fun _ path' => ?_⟩
    have := (takes_word32 (UInt32.ofInt n.toInt)).map fun v => Value.int32 (Int32.ofInt v.toNat)
    rwa [int32_of_uint32_ofInt] at this
  | sfixed64 n =>
    refine ⟨_, rfl, fun _ path' => ?_⟩
    have := (takes_word64 (UInt64.ofInt n.toInt)).map fun v => Value.int64 (Int64.ofInt v.toNat)
    rwa [int64_of_uint64_ofInt] at this
  | bool b =>
    refine ⟨_, rfl, fun _ path' => ?_⟩
    have := (takes_varint (if b then 1 else 0)).map fun v => Value.bool (v ≠ 0)
    cases b <;> exact this
  | string s =>
    refine ⟨_, rfl, fun hlen path' offset more => ?_⟩
    have hbody : (Text.utf8Encode s).length < UInt64.size := by
      rw [lengthPrefixed, List.length_append] at hlen
      omega
    simp only [readScalar, Cursor.body_lengthPrefixed hbody, Text.utf8Decode_utf8Encode]
  | bytes bs =>
    refine ⟨_, rfl, fun hlen path' offset more => ?_⟩
    have hbody : bs.length < UInt64.size := by
      rw [lengthPrefixed, List.length_append] at hlen
      omega
    simp only [readScalar, Cursor.body_lengthPrefixed hbody]
    rfl
  | @enum target e v hdeclared hvalue =>
    obtain ⟨number, hnumber, hback⟩ := hallowed target.fqName e v hdeclared hvalue path
    refine ⟨encodeVarint (UInt64.ofInt number.toInt), ?_, fun _ path' offset more => ?_⟩
    · simp only [scalarBytes, hnumber]
    · simp only [readScalar, takes_varint (UInt64.ofInt number.toInt) offset more,
        int32_of_uint64_ofInt, hback]
      rfl

theorem scalarBytes_takes {codec : Codec} (hnames : codec.DistinctEnumNames) {kind : FieldKind}
    {v : Value} (h : Fits codec EnumDecl.Canonical kind v) (path : String) :
    ∃ bs, codec.scalarBytes v kind path = .ok bs ∧
      (bs.length < UInt64.size → ∀ path', Takes (codec.readScalar kind path') bs v) := by
  refine scalarBytes_takes_of_allowed (fun enumName e v hdeclared hvalue path => ?_) h path
  have hdistinct := hnames e (mem_of_enumeration hdeclared)
  exact exists_number_of_canonical hdeclared hdistinct hvalue path

/-- What is read as a single value fits its kind, and an enum's value is canonical. -/
theorem fits_of_readScalar {codec : Codec} {kind : FieldKind} {path : String} {c rest : Cursor}
    {v : Value} (h : codec.readScalar kind path c = .ok (v, rest)) :
    Fits codec EnumDecl.Canonical kind v := by
  cases kind with
  | enum target =>
    simp only [readScalar] at h
    split at h
    · cases h
    next n after hv =>
      obtain ⟨e, he, hr⟩ := exists_of_map_eq_ok h
      cases hr
      cases hdecl : codec.enumeration target.fqName with
      | error fault =>
        rw [enumOfNumber, hdecl] at he
        cases he
      | ok decl => exact .enum hdecl (canonical_of_enumOfNumber hdecl he)
  | string =>
    simp only [readScalar] at h
    split at h
    · cases h
    · split at h
      · cases h
      · cases h
        constructor
  | message target => cases h
  | group => cases h
  | _ =>
    obtain ⟨r, -, hr⟩ := exists_of_map_eq_ok h
    cases hr
    constructor

/-- Bytes that a value is read from are not empty. -/
theorem ne_nil_of_takes {codec : Codec} {kind : FieldKind} {path : String} {bs : List UInt8}
    {v : Value} (h : Takes (codec.readScalar kind path) bs v) : bs ≠ [] := by
  rintro rfl
  have hmoved := readScalar_moved (h 0 [])
  exact absurd hmoved.size_lt (Nat.lt_irrefl _)

/-! ## Keys of maps -/

/-- A text stands for a key of the kind that it is taken for. -/
theorem fits_of_keyOfText? (codec : Codec) (allowed : EnumDecl → EnumValue → Prop)
    {kind : FieldKind} {text : String} {k : Value} (h : keyOfText? kind text = some k) :
    Fits codec allowed kind k := by
  cases kind with
  | double | float | bytes | enum target | message target | group => cases h
  | bool | string =>
    cases h
    constructor
  | _ =>
    obtain ⟨n, -, rfl⟩ := Option.map_eq_some_iff.1 h
    constructor

/-- The text of a key stands for the key. -/
theorem keyOfText?_textOfKey {codec : Codec} {allowed : EnumDecl → EnumValue → Prop}
    {kind : FieldKind} {k : Value} (hkind : kind.isMapKey = true)
    (h : Fits codec allowed kind k) : keyOfText? kind (textOfKey k) = some k := by
  cases h with
  | int32 n | sint32 n | sfixed32 n =>
    simp only [keyOfText?, textOfKey, Text.integer?_toString, Option.bind_some,
      int32OfInt?_toInt, Option.map_some]
  | int64 n | sint64 n | sfixed64 n =>
    simp only [keyOfText?, textOfKey, Text.integer?_toString, Option.bind_some,
      int64OfInt?_toInt, Option.map_some]
  | uint32 n | fixed32 n =>
    simp only [keyOfText?, textOfKey, Text.natural?_toString, Option.bind_some,
      uint32OfNat?_toNat, Option.map_some]
  | uint64 n | fixed64 n =>
    simp only [keyOfText?, textOfKey, Text.natural?_toString, Option.bind_some,
      uint64OfNat?_toNat, Option.map_some]
  | bool b => cases b <;> rfl
  | string s => rfl
  | double x | float x | bytes bs | enum hdeclared hvalue => cases hkind

end Codec
end ProtoStub
