import Mathlib.Data.List.Nodup
import Mathlib.Logic.Relation
import Mathlib.Tactic.Choose
import ProtoStub.Codec.OfJson
import ProtoStub.Codec.ToJson
import ProtoStub.Proofs.Base64
import ProtoStub.Proofs.Decision

/-!
# Messages survive a trip through JSON

The two directions choose names by different rules: a field is shown under one name and looked
for under up to three. They meet if the name under which a field is shown is looked for by no
other field. Then each field finds what was shown of it and nothing else, and what is not shown
is the default.

As in the binary format, the proof follows the message from the inside out: from messages to
single values, to the content of a field, to the members of an object.
-/

namespace ProtoStub.Codec

/-! ## Integers -/

theorem toInt_int64_ofInt {x : Int} (hlow : -9223372036854775808 ≤ x)
    (hhigh : x < 9223372036854775808) : (Int64.ofInt x).toInt = x := by
  rw [Int64.toInt_ofInt]
  simp only [Int.bmod, Int64.size]
  omega

theorem int64?_ofInt {x : Int} (hlow : -9223372036854775808 ≤ x)
    (hhigh : x < 9223372036854775808) :
    int64? (.number (.ofInt x)) = some (Int64.ofInt x) := by
  rw [JsonNumber.ofInt]
  split
  · rfl
  next hneg =>
    have hlt : x.toNat < UInt64.size := by
      simp only [UInt64.size]
      omega
    have hnat : ((UInt64.ofNat x.toNat).toNat : Int) = x := by
      rw [UInt64.toNat_ofNat_of_lt' hlt]
      omega
    have hback := int64OfInt?_toInt (Int64.ofInt x)
    rw [toInt_int64_ofInt hlow hhigh] at hback
    simp only [int64?, hnat, hback, Option.some_or]

theorem int32?_ofInt (n : Int32) : int32? (.number (.ofInt n.toInt)) = some n := by
  have hlow := n.le_toInt
  have hhigh := n.toInt_lt
  rw [int32?, int64?_ofInt (by omega) (by omega), Option.bind_some,
    toInt_int64_ofInt (by omega) (by omega), int32OfInt?_toInt]

theorem uint32?_natural (n : UInt32) :
    uint32? (.number (.natural (UInt64.ofNat n.toNat))) = some n := by
  have hnat : (UInt64.ofNat n.toNat).toNat = n.toNat :=
    UInt64.toNat_ofNat_of_lt' (Nat.lt_trans n.toNat_lt (by decide))
  simp only [uint32?, uint64?, Option.bind_some, hnat, uint32OfNat?_toNat]

theorem int64?_string (n : Int64) : int64? (.string (toString n.toInt)) = some n := by
  simp only [int64?, Text.trim_toString_int, Text.integer?_toString, Option.bind_some,
    int64OfInt?_toInt]

theorem uint64?_string (n : UInt64) : uint64? (.string (toString n.toNat)) = some n := by
  simp only [uint64?, Text.trim_toString_nat, Text.natural?_toString, Option.bind_some,
    uint64OfNat?_toNat]

/-! ## Single values -/

variable {codec : Codec}

theorem enumOfJson_named {target : TypeRef} {e : EnumDecl} {name : String}
    (h : codec.enumeration target.fqName = .ok e) {number : Int32}
    (hname : e.numberOf? name = some number) (path : String) :
    codec.enumOfJson target path (.string name) = .ok (.named name) := by
  simp only [enumOfJson, h, bind, Except.bind, hname]
  rfl

theorem enumOfJson_unknown {target : TypeRef} {e : EnumDecl} {number : Int32}
    (h : codec.enumeration target.fqName = .ok e) (hnumber : e.nameOf? number = none)
    (path : String) :
    codec.enumOfJson target path (.number (.ofInt number.toInt)) = .ok (.unknown number) := by
  simp only [enumOfJson, int32?_ofInt, expect, bind, Except.bind, enumOfNumber_eq h, hnumber]

/-- A kind whose values JSON tells apart: no floating-point numbers, and no enum with two values
of one name. -/
structure ExactKind (codec : Codec) (kind : FieldKind) : Prop where
  double : kind ≠ .double
  float : kind ≠ .float
  names : codec.NamesApart kind

theorem ExactKind.plainZero {rule : EnumDecl → EnumValue → Prop} {kind : FieldKind} {v : Value}
    (hkind : codec.ExactKind kind) (h : Fits codec rule kind v) : v.plainZero = v := by
  cases h with
  | double x => exact absurd rfl hkind.double
  | float x => exact absurd rfl hkind.float
  | _ => rfl

theorem scalarJson_reads {kind : FieldKind} (hkind : codec.ExactKind kind) {v : Value}
    (h : Fits codec EnumDecl.Canonical kind v) (path : String) :
    ∃ j, scalarJson v kind path = .ok j ∧ j.isNull = false ∧
      ∀ path', codec.scalarOfJson kind path' j = .ok v := by
  cases h with
  | double x => exact absurd rfl hkind.double
  | float x => exact absurd rfl hkind.float
  | int32 n | sint32 n | sfixed32 n =>
    refine ⟨_, rfl, rfl, fun path' => ?_⟩
    simp only [scalarOfJson, int32?_ofInt]
    rfl
  | int64 n | sint64 n | sfixed64 n =>
    refine ⟨_, rfl, rfl, fun path' => ?_⟩
    simp only [scalarOfJson, int64?_string]
    rfl
  | uint32 n | fixed32 n =>
    refine ⟨_, rfl, rfl, fun path' => ?_⟩
    simp only [scalarOfJson, uint32?_natural]
    rfl
  | uint64 n | fixed64 n =>
    refine ⟨_, rfl, rfl, fun path' => ?_⟩
    simp only [scalarOfJson, uint64?_string]
    rfl
  | bool b => exact ⟨_, rfl, rfl, fun _ => rfl⟩
  | string s => exact ⟨_, rfl, rfl, fun _ => rfl⟩
  | bytes bs =>
    refine ⟨_, rfl, rfl, fun path' => ?_⟩
    simp only [scalarOfJson, bytesOfJson, Text.base64Decode_base64Encode]
    rfl
  | @enum target e x hdeclared hvalue =>
    cases x with
    | named name =>
      obtain ⟨number, hnumber⟩ := hvalue
      have hback := EnumDecl.numberOf?_of_nameOf? (hkind.names target e rfl hdeclared) hnumber
      refine ⟨_, rfl, rfl, fun path' => ?_⟩
      simp only [scalarOfJson, enumOfJson_named hdeclared hback]
      rfl
    | unknown number =>
      refine ⟨_, rfl, rfl, fun path' => ?_⟩
      simp only [scalarOfJson, enumOfJson_unknown hdeclared hvalue]
      rfl

theorem namesApart_enum_iff {target : TypeRef} {e : EnumDecl}
    (he : codec.enumeration target.fqName = .ok e) :
    e.DistinctNames ↔ codec.NamesApart (.enum target) := by
  constructor
  · rintro hnames _ e' ⟨⟩ he'
    obtain rfl : e = e' := Except.ok.inj (he.symm.trans he')
    exact hnames
  · intro h
    exact h target e rfl he

theorem namesApart_of_error {target : TypeRef} {failure : Error}
    (he : codec.enumeration target.fqName = .error failure) :
    codec.NamesApart (.enum target) := by
  rintro _ e ⟨⟩ he'
  rw [he] at he'
  cases he'

theorem namesApart_of_forall_ne {kind : FieldKind} (h : ∀ target, kind ≠ .enum target) :
    codec.NamesApart kind :=
  fun target _ hkind _ => absurd hkind (h target)

instance decidableNamesApartEnum (target : TypeRef) : Decidable (codec.NamesApart (.enum target)) :=
  match he : codec.enumeration target.fqName with
  | .ok e => decidable_of_iff e.DistinctNames (namesApart_enum_iff he)
  | .error _ => isTrue (namesApart_of_error he)

instance (kind : FieldKind) : Decidable (codec.NamesApart kind) :=
  match kind with
  | .enum target => decidableNamesApartEnum target
  | .double | .float | .int32 | .int64 | .uint32 | .uint64 | .sint32 | .sint64 | .fixed32
  | .fixed64 | .sfixed32 | .sfixed64 | .bool | .string | .bytes | .message _ | .group =>
    isTrue (namesApart_of_forall_ne fun _ h => FieldKind.noConfusion h)

instance (kind : FieldKind) : Decidable (codec.ExactKind kind) :=
  decidable_of_iff (kind ≠ .double ∧ kind ≠ .float ∧ codec.NamesApart kind)
    ⟨fun h => ⟨h.1, h.2.1, h.2.2⟩, fun h => ⟨h.double, h.float, h.names⟩⟩

/-! ## Views of documents -/

@[simp] theorem jsonView_json (codec : Codec) (j : Json) : (codec.jsonView j).json = j := by
  cases j <;> rfl

theorem itemViews_eq_map (codec : Codec) (items : List Json) :
    codec.itemViews items = items.map codec.jsonView := by
  induction items with
  | nil => rfl
  | cons j rest ih => simp only [itemViews, ih, List.map_cons]

theorem memberViews_eq_map (codec : Codec) (members : List (String × Json)) :
    codec.memberViews members = members.map fun p => (p.1, codec.jsonView p.2) := by
  induction members with
  | nil => rfl
  | cons p rest ih => simp only [memberViews, ih, List.map_cons]

/-! ## Values -/

/-- Messages in which everything that has a default is there. Enums are canonical; keys of maps
can be any texts. -/
abbrev complete (codec : Codec) : Discipline := ⟨EnumDecl.Canonical, fun _ _ => True, Complete codec⟩

/-- A message is written as JSON, and the members of the object are read as the message. -/
def JsonReturns (codec : Codec) (decl : MessageDecl) (m : Message) : Prop :=
  codec.newMessage decl = .ok (codec.fresh decl) ∧
    ∃ members, codec.toJsonAs decl m = .ok (.object members) ∧
      codec.fieldsOfJson decl (codec.memberViews members) decl.fields (codec.fresh decl) = .ok m

/-- A document that is read as a single value of a kind. -/
def Tells (codec : Codec) (kind : FieldKind) (v : Value) (j : Json) : Prop :=
  j.isNull = false ∧ ∀ path, (codec.jsonView j).value codec kind path = .ok v

theorem Conforms.shown {kind : FieldKind} {v : Value}
    (h : Conforms codec codec.complete (JsonReturns codec) kind v)
    (hkind : codec.ExactKind kind) (path : String) :
    ∃ j, (v.view codec.valueJson).write kind path = .ok j ∧ Tells codec kind v j := by
  cases h with
  | scalar hfits =>
    obtain ⟨j, hj, hnull, hread⟩ := scalarJson_reads hkind hfits path
    have hwrite : (v.view codec.valueJson).write kind path = scalarJson v kind path := by
      cases hfits <;> rfl
    have hvalue : ∀ path', (codec.jsonView j).value codec kind path' =
        codec.scalarOfJson kind path' j := by
      intro path'
      cases hfits <;> simp only [JsonView.value, jsonView_json]
    exact ⟨j, hwrite.trans hj, hnull, fun path' => (hvalue path').trans (hread path')⟩
  | @message target decl m hdecl hm =>
    obtain ⟨hnew, members, hmembers, hread⟩ := hm
    refine ⟨.object members, ?_, rfl, fun path' => ?_⟩
    · obtain ⟨typeName, fields⟩ := m
      simp only [Value.view, valueJson, hdecl]
      exact hmembers
    · simp only [JsonView.value, hdecl, hnew, bind, Except.bind, jsonView, hread]
      rfl

theorem items_shown {kind : FieldKind} {items : List Value}
    (h : ∀ v ∈ items, Conforms codec codec.complete (JsonReturns codec) kind v)
    (hkind : codec.ExactKind kind) (path : String) :
    ∃ js, itemsJson kind path (items.map fun v => (v.view codec.valueJson).write) = .ok js ∧
      ∀ path', itemsOfJson kind path' (js.map fun j => (codec.jsonView j).value codec) =
        .ok items := by
  induction items with
  | nil => exact ⟨[], rfl, fun _ => rfl⟩
  | cons v rest ih =>
    rw [List.forall_mem_cons] at h
    obtain ⟨j, hj, -, hread⟩ := h.1.shown hkind path
    obtain ⟨js, hjs, hreads⟩ := ih h.2
    refine ⟨j :: js, ?_, fun path' => ?_⟩
    · simp only [List.map_cons, itemsJson, hj, hjs]
      rfl
    · simp only [List.map_cons, itemsOfJson, hread, hreads]
      rfl

/-- Entries are shown as members with the same keys. -/
theorem entries_shown {kind : FieldKind} {entries : List (String × Value)}
    (h : ∀ p ∈ entries, Conforms codec codec.complete (JsonReturns codec) kind p.2)
    (hkind : codec.ExactKind kind) (path : String) :
    ∃ members : List (String × Json), members.map Prod.fst = entries.map Prod.fst ∧
      (∀ before, entriesJson kind path before
          (entries.map fun p => (p.1, (p.2.view codec.valueJson).write)) =
        .ok (members.foldl (fun m p => KeyMap.insert m p.1 p.2) before)) ∧
      ∀ path' before, entriesOfJson kind path' before
          (members.map fun p => (p.1, (codec.jsonView p.2).value codec)) =
        .ok (entries.foldl (fun m p => KeyMap.insert m p.1 p.2) before) := by
  induction entries with
  | nil => exact ⟨[], rfl, fun _ => rfl, fun _ _ => rfl⟩
  | cons p rest ih =>
    rw [List.forall_mem_cons] at h
    obtain ⟨j, hj, -, hread⟩ := h.1.shown hkind path
    obtain ⟨members, hkeys, hwrite, hreads⟩ := ih h.2
    refine ⟨(p.1, j) :: members, ?_, fun before => ?_, fun path' before => ?_⟩
    · rw [List.map_cons, List.map_cons, hkeys]
    · simp only [List.map_cons, entriesJson, hj, hwrite, List.foldl_cons]
    · simp only [List.map_cons, entriesOfJson, hread, hreads, List.foldl_cons]

/-! ## Fields -/

theorem contentOfJson_single {info : FieldInfo} (hsingle : info.repeated = false)
    {old : Option Value} (hold : info.hasMessageKind = true → old = none) (path : String)
    (view : JsonView) :
    codec.contentOfJson (.plain info) path old view = view.value codec info.kind path := by
  simp only [contentOfJson, hsingle, Bool.false_eq_true, if_false]
  split
  next hk =>
    have hmessage : info.hasMessageKind = true := by rw [FieldInfo.hasMessageKind, hk]
    cases hold hmessage
  · rfl

theorem Holds.shown {field : Field} {v : Value}
    (h : Holds codec codec.complete (JsonReturns codec) field v)
    (hkind : codec.ExactKind field.contentKind) (path : String) :
    ∃ j, contentJson field path (v.view codec.valueJson) = .ok j ∧ j.isNull = false ∧
      ∀ path' old, (field.isMessage = true → old = none) →
        codec.contentOfJson field path' old (codec.jsonView j) = .ok v := by
  cases h with
  | @single info _ hsingle hv =>
    obtain ⟨j, hj, hnull, hread⟩ := hv.shown hkind path
    refine ⟨j, ?_, hnull, fun path' old hold => ?_⟩
    · simp only [contentJson, hsingle, Bool.false_eq_true, if_false]
      exact hj
    · rw [contentOfJson_single hsingle, hread]
      intro hmessage
      exact hold (by rw [Field.isMessage, hmessage, hsingle]; rfl)
  | @list info items hrep hvs =>
    obtain ⟨js, hjs, hread⟩ := items_shown hvs hkind path
    refine ⟨.array js, ?_, rfl, fun path' old _ => ?_⟩
    · simp only [contentJson, hrep, if_true, Value.view, Value.writers_eq_map, hjs]
      rfl
    · simp only [contentOfJson, hrep, if_true, jsonView, itemViews_eq_map, List.map_map,
        Function.comp_def, hread]
      rfl
  | @map info key value entries hsorted _ hvs =>
    obtain ⟨members, hkeys, hwrite, hread⟩ := entries_shown hvs hkind path
    have hmembers : KeyMap.Sorted members := hsorted.of_keys hkeys
    refine ⟨.object members, ?_, rfl, fun path' old _ => ?_⟩
    · simp only [contentJson, Value.view, Value.entryWriters_eq_map, hwrite,
        hmembers.foldl_insert]
      rfl
    · simp only [contentOfJson, jsonView, memberViews_eq_map, List.map_map, Function.comp_def,
        hread, hsorted.foldl_insert]
      rfl

theorem Conforms.isShown_eq {rules : Discipline} {nested : MessageDecl → Message → Prop}
    {kind : FieldKind} {v : Value} (h : Conforms codec rules nested kind v) (field : Field)
    (path : String) :
    codec.isShown field path v =
      if field.implicitPresence && !codec.emitDefaults then
        (!·) <$> codec.isZero field.info.kind path v
      else .ok true := by
  cases h with
  | scalar hfits => cases hfits <;> rfl
  | message => rfl

/-- What is not shown is the default. -/
theorem Holds.exists_isShown {field : Field} (hformed : field.Formed) {v : Value}
    {nested : MessageDecl → Message → Prop} (h : Holds codec codec.complete nested field v)
    (hkind : codec.ExactKind field.contentKind) (path : String) :
    ∃ shown, codec.isShown field path v = .ok shown ∧
      (shown = false → codec.defaultOf field = some v) := by
  cases h with
  | @list info items hrep _ =>
    refine ⟨_, rfl, fun hshown => ?_⟩
    rw [Bool.or_eq_false_iff, Bool.not_eq_false', List.isEmpty_iff] at hshown
    rw [defaultOf_list hformed hrep, hshown.2]
  | @map info key value entries _ _ _ =>
    refine ⟨_, rfl, fun hshown => ?_⟩
    rw [Bool.or_eq_false_iff, Bool.not_eq_false', List.isEmpty_iff] at hshown
    rw [defaultOf_map hformed, hshown.2]
  | @single info _ hsingle hv =>
    rw [hv.isShown_eq]
    by_cases hhide : ((Field.plain info).implicitPresence && !codec.emitDefaults) = true
    · rw [if_pos hhide]
      rw [Bool.and_eq_true] at hhide
      obtain ⟨-, -, hinitial⟩ := initial_implicit hformed hhide.1
      have hfits : Fits codec EnumDecl.Canonical info.kind v :=
        ((Holds.single hsingle hv).fits_of_implicit hhide.1).1
      obtain ⟨zero, hzero, hdefault, -⟩ := isZero_spec hkind.names hinitial hfits path
      refine ⟨!zero, by rw [Field.info, hzero]; rfl, fun hshown => ?_⟩
      rw [Bool.not_eq_false'] at hshown
      have hsome : codec.defaultOf (.plain info) = some v.plainZero :=
        defaultOf_eq (hdefault hshown)
      rw [hsome, hkind.plainZero hfits]
    · rw [if_neg hhide]
      exact ⟨true, rfl, fun hshown => absurd hshown (by decide)⟩

/-! ## Members -/

section

variable {decl : MessageDecl} {m : Message} {shown : Field → Option Json}

/-- What is shown of a field of a message. -/
def memberOf (codec : Codec) (decl : MessageDecl) (m : Message) (field : Field) :
    Except Error (Option Json) :=
  match m.get? field.info.name with
  | none => .ok none
  | some v =>
    match codec.isShown field (fieldPath decl field.info) v with
    | .error e => .error e
    | .ok false => .ok none
    | .ok true =>
      some <$> contentJson field (fieldPath decl field.info) (v.view codec.valueJson)

/-- The members of an object, with what is shown of the given fields. -/
def showAll (codec : Codec) (shown : Field → Option Json) :
    List Field → KeyMap Json → KeyMap Json
  | [], members => members
  | field :: rest, members =>
    match shown field with
    | none => codec.showAll shown rest members
    | some j =>
      codec.showAll shown rest
        (KeyMap.insert members (field.info.outputName codec.protoNames) j)

theorem membersOf_eq {fields : List Field}
    (h : ∀ field ∈ fields, codec.memberOf decl m field = .ok (shown field))
    (members : KeyMap Json) :
    codec.membersOf decl (Value.fieldViews codec.valueJson m.fields) fields members =
      .ok (codec.showAll shown fields members) := by
  induction fields generalizing members with
  | nil => rfl
  | cons field rest ih =>
    rw [List.forall_mem_cons] at h
    obtain ⟨hfield, hrest⟩ := h
    rw [membersOf, Value.fieldViews_eq_map, KeyMap.find?_map, ← Value.fieldViews_eq_map, showAll]
    unfold memberOf Message.get? at hfield
    cases hv : KeyMap.find? m.fields field.info.name with
    | none =>
      rw [hv] at hfield
      rw [← Except.ok.inj hfield]
      exact ih hrest members
    | some v =>
      rw [hv] at hfield
      simp only [Option.map_some, Value.view_value] at hfield ⊢
      cases hshown : codec.isShown field (fieldPath decl field.info) v with
      | error e =>
        rw [hshown] at hfield
        cases hfield
      | ok visible =>
        rw [hshown] at hfield
        cases visible with
        | false =>
          rw [← Except.ok.inj hfield]
          exact ih hrest members
        | true =>
          cases hj : contentJson field (fieldPath decl field.info) (v.view codec.valueJson) with
          | error e =>
            rw [hj] at hfield
            cases hfield
          | ok j =>
            rw [hj] at hfield
            rw [← Except.ok.inj hfield]
            exact ih hrest _

theorem find?_showAll_of_forall_ne {fields : List Field} {name : String}
    (h : ∀ field ∈ fields, field.info.outputName codec.protoNames ≠ name)
    (members : KeyMap Json) :
    KeyMap.find? (codec.showAll shown fields members) name = KeyMap.find? members name := by
  induction fields generalizing members with
  | nil => rfl
  | cons field rest ih =>
    rw [List.forall_mem_cons] at h
    rw [showAll]
    split
    · exact ih h.2 members
    · rw [ih h.2, KeyMap.find?_insert, if_neg h.1]

theorem find?_showAll_of_mem {fields : List Field}
    (hnames : (fields.map (·.info.outputName codec.protoNames)).Nodup) {field : Field}
    (hf : field ∈ fields) {members : KeyMap Json}
    (habsent : KeyMap.find? members (field.info.outputName codec.protoNames) = none) :
    KeyMap.find? (codec.showAll shown fields members)
      (field.info.outputName codec.protoNames) = shown field := by
  induction fields generalizing members with
  | nil => cases hf
  | cons first rest ih =>
    rw [List.map_cons, List.nodup_cons] at hnames
    rw [showAll]
    rcases List.mem_cons.1 hf with rfl | hf
    · have hne : ∀ g ∈ rest,
          g.info.outputName codec.protoNames ≠ field.info.outputName codec.protoNames := by
        intro g hg heq
        exact hnames.1 (heq ▸ List.mem_map_of_mem hg)
      split
      next hnone => rw [find?_showAll_of_forall_ne hne, habsent, hnone]
      next j hsome =>
        rw [find?_showAll_of_forall_ne hne, KeyMap.find?_insert, if_pos rfl, hsome]
    · have hne : first.info.outputName codec.protoNames ≠
          field.info.outputName codec.protoNames := by
        intro heq
        exact hnames.1 (heq ▸ List.mem_map_of_mem hf)
      split
      · exact ih hnames.2 hf habsent
      · refine ih hnames.2 hf ?_
        rw [KeyMap.find?_insert, if_neg hne, habsent]

/-! ## Names -/

/-- The name under which a field is shown is one that it is looked for under. -/
theorem outputName_mem_readNames {info : FieldInfo} (h : info.Named) (protoNames : Bool) :
    info.outputName protoNames ∈ info.readNames := by
  rw [FieldInfo.readNames, List.mem_eraseDups, FieldInfo.outputName, h.custom]
  cases protoNames with
  | true => simp
  | false =>
    by_cases hjson : info.jsonName = info.name
    · simp [hjson, h.name]
    · simp [hjson]

/-- A type of whose messages JSON keeps everything. -/
structure JsonReady (codec : Codec) (decl : MessageDecl) : Prop where
  properties : decl.DistinctProperties
  /-- No field is shown under a name that another one is looked for under. -/
  names : ∀ f ∈ decl.fields, ∀ g ∈ decl.fields, f ≠ g →
    f.info.outputName codec.protoNames ∉ g.info.readNames
  kinds : ∀ field ∈ decl.fields, codec.ExactKind field.contentKind
  indexed : ∀ field ∈ decl.fields, codec.Indexed field.contentKind

instance (decl : MessageDecl) : Decidable (codec.JsonReady decl) :=
  decidable_of_iff
    (decl.DistinctProperties ∧ (∀ f ∈ decl.fields, ∀ g ∈ decl.fields, f ≠ g →
      f.info.outputName codec.protoNames ∉ g.info.readNames) ∧
      ∀ field ∈ decl.fields, codec.ExactKind field.contentKind ∧ codec.Indexed field.contentKind)
    ⟨fun h => ⟨h.1, h.2.1, fun f hf => (h.2.2 f hf).1, fun f hf => (h.2.2 f hf).2⟩,
      fun h => ⟨h.properties, h.names, fun f hf => ⟨h.kinds f hf, h.indexed f hf⟩⟩⟩

theorem named_of_formed {field : Field} (h : field.Formed) : field.info.Named := by
  cases h with
  | plain hnamed => exact hnamed
  | map hnamed => exact hnamed

theorem JsonReady.nodup_outputName (h : codec.JsonReady decl) (hformed : decl.Formed) :
    (decl.fields.map (·.info.outputName codec.protoNames)).Nodup := by
  refine List.Nodup.map_on ?_ (List.Nodup.of_map _ h.properties)
  intro f hf g hg heq
  by_contra hne
  have hown := outputName_mem_readNames (named_of_formed (hformed.fields g hg)) codec.protoNames
  rw [← heq] at hown
  exact h.names f hf g hg hne hown

/-- A name that is the only one of several to be there is found. -/
theorem firstPresent?_eq {views : List (String × JsonView)} {names : List String} {name : String}
    (hmem : name ∈ names) (hothers : ∀ other ∈ names, other ≠ name → KeyMap.find? views other = none)
    (hnull : ∀ view, KeyMap.find? views name = some view → view.json.isNull = false) :
    firstPresent? views names = KeyMap.find? views name := by
  unfold firstPresent?
  cases hfind : KeyMap.find? views name with
  | none =>
    have hall : ∀ other ∈ names, KeyMap.find? views other = none := by
      intro other hother
      by_cases heq : other = name
      · rw [heq, hfind]
      · exact hothers other hother heq
    rw [List.filterMap_eq_nil_iff.2 hall]
    rfl
  | some view =>
    induction names with
    | nil => cases hmem
    | cons first rest ih =>
      rw [List.forall_mem_cons] at hothers
      by_cases heq : first = name
      · rw [List.filterMap_cons, heq, hfind]
        simp [hnull view hfind]
      · rw [List.filterMap_cons, hothers.1 heq]
        refine ih ?_ hothers.2
        rcases List.mem_cons.1 hmem with h | h
        · exact absurd h.symm heq
        · exact h

theorem firstPresent?_showAll (hready : codec.JsonReady decl) (hformed : decl.Formed)
    {field : Field} (hf : field ∈ decl.fields)
    (hnull : ∀ j, shown field = some j → j.isNull = false) :
    firstPresent? (codec.memberViews (codec.showAll shown decl.fields [])) field.info.readNames =
      (shown field).map codec.jsonView := by
  have hfind : ∀ name, KeyMap.find? (codec.memberViews (codec.showAll shown decl.fields [])) name =
      (KeyMap.find? (codec.showAll shown decl.fields []) name).map codec.jsonView := by
    intro name
    rw [memberViews_eq_map, KeyMap.find?_map]
  have hown : KeyMap.find? (codec.showAll shown decl.fields [])
      (field.info.outputName codec.protoNames) = shown field :=
    find?_showAll_of_mem (hready.nodup_outputName hformed) hf rfl
  have hmem : field.info.outputName codec.protoNames ∈ field.info.readNames :=
    outputName_mem_readNames (named_of_formed (hformed.fields field hf)) _
  rw [firstPresent?_eq hmem, hfind, hown]
  · intro other hother hne
    rw [hfind, find?_showAll_of_forall_ne, KeyMap.find?_nil, Option.map_none]
    intro g hg heq
    -- No other field is shown under a name of this one.
    by_cases hgf : g = field
    · exact hne (by rw [← heq, hgf])
    · exact hready.names g hg field hf hgf (heq ▸ hother)
  · intro view hview
    rw [hfind, hown] at hview
    obtain ⟨j, hj, rfl⟩ := Option.map_eq_some_iff.1 hview
    rw [jsonView_json]
    exact hnull j hj

/-! ## Messages -/

/-- What is shown of a field is enough to find its property again. -/
def Recalls (codec : Codec) (decl : MessageDecl) (m : Message) (field : Field) :
    Option Json → Prop
  | none => m.get? field.info.name = codec.defaultOf field
  | some j => j.isNull = false ∧ ∃ v, m.get? field.info.name = some v ∧
      codec.contentOfJson field (fieldPath decl field.info) (codec.defaultOf field)
        (codec.jsonView j) = .ok v

theorem exists_member {field : Field} (hformed : field.Formed)
    (hkind : codec.ExactKind field.contentKind)
    (hcomplete : (codec.defaultOf field).isSome = true → (m.get? field.info.name).isSome = true)
    (hholds : ∀ v, m.get? field.info.name = some v →
      Holds codec codec.complete (JsonReturns codec) field v) :
    ∃ j?, codec.memberOf decl m field = .ok j? ∧ Recalls codec decl m field j? := by
  unfold memberOf
  cases hv : m.get? field.info.name with
  | none =>
    refine ⟨none, rfl, ?_⟩
    rw [hv] at hcomplete
    rw [Recalls, hv]
    cases hdefault : codec.defaultOf field with
    | none => rfl
    | some v =>
      rw [hdefault] at hcomplete
      cases hcomplete rfl
  | some v =>
    obtain ⟨shown, hshown, hdefault⟩ :=
      (hholds v hv).exists_isShown hformed hkind (fieldPath decl field.info)
    cases shown with
    | false =>
      refine ⟨none, by simp only [hshown], ?_⟩
      rw [Recalls, hv, hdefault rfl]
    | true =>
      obtain ⟨j, hj, hnull, hread⟩ := (hholds v hv).shown hkind (fieldPath decl field.info)
      refine ⟨some j, by simp only [hshown, hj]; rfl, hnull, v, hv, ?_⟩
      exact hread _ _ (defaultOf_of_isMessage hformed)

/-- Reading what is shown of some fields puts their properties one after the other. -/
theorem fieldsOfJson_eq {views : List (String × JsonView)} {fields : List Field}
    (hviews : ∀ field ∈ fields,
      firstPresent? views field.info.readNames = (shown field).map codec.jsonView)
    (hrecalls : ∀ field ∈ fields, Recalls codec decl m field (shown field))
    (hnames : (fields.map (·.info.name)).Nodup) {s : Message} (hs : s.Sorted)
    (hold : ∀ field ∈ fields, s.get? field.info.name = codec.defaultOf field) :
    codec.fieldsOfJson decl views fields s =
      .ok (s.putAll fields fun field => m.get? field.info.name) := by
  induction fields generalizing s with
  | nil => rfl
  | cons field rest ih =>
    rw [List.forall_mem_cons] at hviews hrecalls hold
    rw [List.map_cons, List.nodup_cons] at hnames
    have hrest := Message.get?_put_of_notMem hnames.1 hold.2 (m.get? field.info.name)
    have hnext := ih hviews.2 hrecalls.2 hnames.2 (hs.put _ _) hrest
    rw [fieldsOfJson, hviews.1]
    have hfield := hrecalls.1
    cases hshown : shown field with
    | none =>
      rw [hshown, Recalls] at hfield
      rw [hs.put_self (hold.1.trans hfield.symm)] at hnext
      rw [Option.map_none, Message.putAll, List.foldl_cons,
        hs.put_self (hold.1.trans hfield.symm)]
      exact hnext
    | some j =>
      rw [hshown, Recalls] at hfield
      obtain ⟨-, v, hv, hread⟩ := hfield
      rw [hv] at hnext
      rw [Option.map_some, hold.1]
      simp only [hread, Message.putAll, List.foldl_cons, hv]
      exact hnext

/-- A type refers to another by one of its fields. -/
def Refers (codec : Codec) (decl next : MessageDecl) : Prop :=
  ∃ field ∈ decl.fields, ∃ target, field.contentKind = .message target ∧
    codec.message target.fqName = .ok next

theorem mem_of_refers {d : MessageDecl} (hdecl : decl ∈ codec.messages)
    (h : Relation.ReflTransGen codec.Refers decl d) : d ∈ codec.messages := by
  rcases h.cases_tail with rfl | ⟨_, _, _, _, _, _, hd⟩
  · exact hdecl
  · exact mem_of_message hd

theorem ConformsTo.jsonReturns (hformed : ∀ decl ∈ codec.messages, decl.Formed)
    (h : ConformsTo codec codec.complete decl m) :
    decl ∈ codec.messages → (∀ d, Relation.ReflTransGen codec.Refers decl d → codec.JsonReady d) →
      JsonReturns codec decl m := by
  refine ConformsTo.induct (fun decl m hm ih hdecl hready => ?_) h
  have hown : codec.JsonReady decl := hready decl .refl
  have hdeclFormed := hformed decl hdecl
  have hholds : ∀ field ∈ decl.fields, ∀ v, m.get? field.info.name = some v →
      Holds codec codec.complete (JsonReturns codec) field v := by
    intro field hf v hv
    refine (ih field hf v hv).imp fun target d x htarget hd hx => ?_
    refine hx.2 (mem_of_message hd) fun e he => hready e ?_
    exact .head ⟨field, hf, target, htarget, hd⟩ he
  have hmembers : ∀ field ∈ decl.fields, ∃ j?, codec.memberOf decl m field = .ok j? ∧
      Recalls codec decl m field j? := fun field hf =>
    exists_member (hdeclFormed.fields field hf) (hown.kinds field hf) (hm.level field hf)
      (hholds field hf)
  choose! shown hshown hrecalls using hmembers
  refine ⟨newMessage_eq_of_formed hdeclFormed.fields hown.properties hown.indexed,
    codec.showAll shown decl.fields [], ?_, ?_⟩
  · rw [toJsonAs, membersOf_eq hshown]
    rfl
  · have hviews : ∀ field ∈ decl.fields, firstPresent?
        (codec.memberViews (codec.showAll shown decl.fields [])) field.info.readNames =
          (shown field).map codec.jsonView := by
      intro field hf
      refine firstPresent?_showAll hown hdeclFormed hf fun j hj => ?_
      have hfield := hrecalls field hf
      rw [hj] at hfield
      exact hfield.1
    rw [fieldsOfJson_eq hviews hrecalls hown.properties (sorted_fresh codec decl)
      (fun field hf => get?_fresh hown.properties hf)]
    exact congrArg Except.ok
      (putAll_fresh codec hown.properties hm.sorted hm.typeName fun _ _ hv => hm.declared hv)

end

/-- A message in which everything that has a default is there is shown as JSON, with or without
its defaults and under either sort of names, and the document is read as the message. -/
theorem ofJson_toJson (hresolved : codec.Resolved) {typeName : String} {decl : MessageDecl}
    {m : Message} (htype : codec.message typeName = .ok decl)
    (hown : codec.message m.typeName = .ok decl)
    (hready : ∀ d, Relation.ReflTransGen codec.Refers decl d → codec.JsonReady d)
    (hm : ConformsTo codec codec.complete decl m) :
    ∃ json, codec.toJson m = .ok json ∧ codec.ofJson typeName json = .ok m := by
  have hformed : ∀ decl ∈ codec.messages, decl.Formed := by
    cases hresolved with | intro hbuild options => exact formed_of_build hbuild options
  obtain ⟨hnew, members, hmembers, hread⟩ := hm.jsonReturns hformed (mem_of_message htype) hready
  refine ⟨.object members, ?_, ?_⟩
  · simp only [toJson, hown, hmembers]
  · simp only [ofJson, htype, hnew, jsonView, hread]

/-- The codec of trees whose heights are whole numbers, which shows the names of the schema. -/
abbrev wholeGrove : Codec := grove .int64 { protoNames := true }

/-- A tree with everything that has a default, and a person. -/
def seedling : Message :=
  ⟨"grove.Tree",
    [("branches", .list [.message ⟨"grove.Tree", [("branches", .list []), ("club", .int64 (-7)),
        ("marks", .map []), ("treeHeight", .int64 9007199254740993)]⟩]),
      ("marks", .map [("twelve", .enum (.unknown 9))]), ("person", .string ""),
      ("treeHeight", .int64 0)]⟩

theorem ofJson_toJson_seedling :
    wholeGrove.Resolved ∧
      (∀ d, Relation.ReflTransGen wholeGrove.Refers (groveTree .int64) d →
        wholeGrove.JsonReady d) ∧
      ConformsTo wholeGrove wholeGrove.complete (groveTree .int64) seedling ∧
      ∃ json, wholeGrove.toJson seedling = .ok json ∧
        wholeGrove.ofJson ".grove.Tree" json = .ok seedling := by
  have hresolved : wholeGrove.Resolved :=
    resolved_of_build [groveFile .int64] ["grove.proto"] .javaScript { protoNames := true } (by cbv)
  have hall : ∀ d ∈ wholeGrove.messages, wholeGrove.JsonReady d := by decide +kernel
  have hready : ∀ d, Relation.ReflTransGen wholeGrove.Refers (groveTree .int64) d →
      wholeGrove.JsonReady d :=
    fun d hd => hall d (mem_of_refers (by decide +kernel) hd)
  have hm := conformsTo_of_within 2 (show ConformsWithin wholeGrove wholeGrove.complete 2
    (groveTree .int64) seedling by decide +kernel)
  exact ⟨hresolved, hready, hm,
    ofJson_toJson hresolved (by decide +kernel) (by decide +kernel) hready hm⟩

end ProtoStub.Codec
