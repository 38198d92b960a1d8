import Mathlib
import ProtoStub.Proofs.ShownFields

/-!
# Only new messages are empty

A message that was just made holds the default of every field, which is what no bytes and the
empty object are read as. Written again it takes no bytes, since defaults are left out
(`Holds.isLeftOut_of_default`). Nothing else is (`Holds.default_of_isLeftOut`), as long as enums are
canonical and no zero has a sign that would be lost. So a message that takes no bytes is a new one
as soon as its absent fields are filled in (`encode_eq_nil_iff_filled`).
-/

namespace ProtoStub.Codec

open Wire

variable {codec : Codec} {rules : Discipline} {nested : MessageDecl → Message → Prop}

/-! ## Defaults are left out -/

/-- The default of a field that cannot be absent is a zero. -/
theorem isZero_of_defaultValue {info : FieldInfo} (hnames : codec.NamesApart info.kind)
    (hinitial : info.initial = info.kind.initialValue) {v : Value}
    (h : codec.defaultValue info = .ok (some v)) (path : String) :
    codec.isZero info.kind path v = .ok true := by
  rw [defaultValue, hinitial] at h
  cases hkind : info.kind with
  | enum target =>
    rw [hkind] at h hnames
    obtain ⟨value, hvalue, hv⟩ := exists_of_map_eq_ok h
    cases hv
    cases he : codec.enumeration target.fqName with
    | error err =>
      rw [enumOfNumber, he] at hvalue
      cases hvalue
    | ok e =>
      have hdistinct := hnames target e rfl he
      rw [enumOfNumber_eq he] at hvalue
      cases hvalue
      cases hname : e.nameOf? 0 with
      | none => rfl
      | some name =>
        have hnumber := EnumDecl.numberOf?_of_nameOf? hdistinct hname
        simp only [isZero, numberOfEnum, he, bind, Except.bind, hnumber]
        rfl
  | message target =>
    rw [hkind] at h
    cases h
  | group =>
    rw [hkind] at h
    cases h
  | _ =>
    rw [hkind] at h
    cases h
    rfl

theorem Holds.isLeftOut_of_default {field : Field} (hformed : field.Formed)
    (hnames : codec.NamesApart field.contentKind) {v : Value}
    (h : Holds codec rules nested field v) (hdefault : codec.defaultOf field = some v)
    (path : String) : codec.isLeftOut field path v = .ok true := by
  cases h with
  | list hrep =>
    rw [defaultOf_list hformed hrep] at hdefault
    cases hdefault
    rfl
  | map =>
    rw [defaultOf_map hformed] at hdefault
    cases hdefault
    rfl
  | @single info v hsingle hv =>
    rw [hv.isLeftOut_eq]
    cases himplicit : (Field.plain info).implicitPresence with
    | false =>
      rw [defaultOf_explicit hformed hsingle himplicit] at hdefault
      cases hdefault
    | true =>
      obtain ⟨-, -, hinitial⟩ := initial_implicit hformed himplicit
      refine isZero_of_defaultValue hnames hinitial ?_ path
      rw [defaultOf] at hdefault
      split at hdefault
      next hok => rw [← hdefault]; exact hok
      · cases hdefault

/-- A field is left out only if it holds its default. -/
theorem Holds.default_of_isLeftOut (henum : ∀ e v, rules.enum e v → e.Canonical v)
    {field : Field} (hformed : field.Formed) (hnames : codec.NamesApart field.contentKind)
    {v : Value} (h : Holds codec rules nested field v)
    (hplain : field.implicitPresence = true → ¬ v.IsNegativeZero) {path : String}
    (hleft : codec.isLeftOut field path v = .ok true) : codec.defaultOf field = some v := by
  cases h with
  | @list info items hrep hvs =>
    obtain rfl : items = [] := by simpa [isLeftOut] using hleft
    exact defaultOf_list hformed hrep
  | @map info key value entries hsorted hkeys hvs =>
    obtain rfl : entries = [] := by simpa [isLeftOut] using hleft
    exact defaultOf_map hformed
  | @single info v hsingle hv =>
    rw [hv.isLeftOut_eq] at hleft
    cases himplicit : (Field.plain info).implicitPresence with
    | false =>
      rw [himplicit] at hleft
      cases hleft
    | true =>
      rw [himplicit, if_pos rfl] at hleft
      obtain ⟨-, -, hinitial⟩ := initial_implicit hformed himplicit
      have hfits := ((Holds.single hsingle hv).fits_of_implicit himplicit).1.mono henum
      obtain ⟨zero, hzero, hdefault, -⟩ := isZero_spec hnames hinitial hfits path
      obtain rfl : zero = true := Except.ok.inj (hzero.symm.trans hleft)
      have hvalue : codec.defaultOf (.plain info) = some v.plainZero :=
        defaultOf_eq (hdefault rfl)
      rwa [Value.plainZero_of_not (hplain himplicit)] at hvalue

/-! ## Messages that take no bytes -/

theorem recordsOf_eq_nil_iff {decl : MessageDecl} {views : List (String × View (List UInt8))}
    {fields : List Field} :
    codec.recordsOf decl views fields = .ok [] ↔
      ∀ field ∈ fields, codec.presentRecords decl views field = .ok [] := by
  induction fields with
  | nil => simp [recordsOf]
  | cons field rest ih =>
    rw [List.forall_mem_cons, ← ih, recordsOf]
    cases codec.presentRecords decl views field with
    | error e => simp
    | ok first => cases codec.recordsOf decl views rest <;> simp

section

variable {decl : MessageDecl} {m : Message}

theorem ConformsTo.encodeAs_eq_nil_iff (h : ConformsTo codec rules decl m) :
    codec.encodeAs decl m = .ok [] ↔
      ∀ field ∈ decl.fields, ∀ v, m.get? field.info.name = some v →
        codec.isLeftOut field (fieldPath decl field.info) v = .ok true := by
  rw [encodeAs, recordsOf_eq_nil_iff]
  refine forall₂_congr fun field hf => ?_
  rw [presentRecords_eq]
  cases hv : m.get? field.info.name with
  | none => simp
  | some v => simpa using (h.holds hf hv).fieldRecords_eq_nil_iff (fieldPath decl field.info)

/-- A message of a type with its absent fields at their defaults, if they have any. -/
def filled (codec : Codec) (decl : MessageDecl) (m : Message) : Message :=
  m.putAll decl.fields fun field => codec.fill field (m.get? field.info.name)

/-- A message is new once it is filled exactly if all that it holds are defaults. -/
theorem ConformsTo.filled_eq_fresh_iff (hnames : decl.DistinctProperties)
    (h : ConformsTo codec rules decl m) :
    codec.filled decl m = codec.fresh decl ↔
      ∀ field ∈ decl.fields, ∀ v, m.get? field.info.name = some v →
        codec.defaultOf field = some v := by
  have hget {field : Field} (hf : field ∈ decl.fields) :
      (codec.filled decl m).get? field.info.name =
        (m.get? field.info.name).or (codec.defaultOf field) :=
    Message.get?_putAll_of_mem hnames hf
  constructor
  · intro heq field hf v hv
    rw [← get?_fresh hnames hf, ← heq, hget hf, hv, Option.some_or]
  · intro hdefaults
    refine Message.ext_get? (h.sorted.putAll _ _) (sorted_fresh codec decl) ?_ fun name => ?_
    · rw [filled, Message.typeName_putAll, typeName_fresh, h.typeName]
    · by_cases hname : ∃ field ∈ decl.fields, field.info.name = name
      · obtain ⟨field, hf, rfl⟩ := hname
        rw [hget hf, get?_fresh hnames hf]
        cases hv : m.get? field.info.name with
        | none => exact Option.none_or
        | some v => rw [Option.some_or, hdefaults field hf v hv]
      · have hne : ∀ field ∈ decl.fields, field.info.name ≠ name :=
          fun field hf heq => hname ⟨field, hf, heq⟩
        rw [filled, Message.get?_putAll_of_forall_ne hne, get?_fresh_of_forall_ne hne]
        cases hv : m.get? name with
        | none => rfl
        | some v => exact absurd (h.declared hv) hname

/-! ## New messages -/

theorem defaultValue_eq_none_iff {info : FieldInfo} {value : Option Value}
    (h : codec.defaultValue info = .ok value) : value = none ↔ info.initial = .unset := by
  unfold defaultValue at h
  split at h
  case h_7 hinitial | h_8 hinitial =>
    cases h
    simp [hinitial]
  case h_9 hinitial =>
    cases h
    simp [hinitial]
  all_goals
    next hinitial =>
      obtain ⟨v, -, rfl⟩ := exists_of_map_eq_ok h
      simp [hinitial]

theorem defaultOf_isSome_iff {field : Field} (hformed : field.Formed)
    (hindexed : codec.Indexed field.contentKind) :
    (codec.defaultOf field).isSome = true ↔ field.info.initial ≠ .unset := by
  rw [Option.isSome_iff_ne_none, Ne, defaultValue_eq_none_iff (defaultValue_eq hformed hindexed)]

theorem Grounded.newMessage_eq (hgrounded : codec.Grounded) (hdecl : decl ∈ codec.messages) :
    codec.newMessage decl = .ok (codec.fresh decl) :=
  newMessage_eq_of_formed (hgrounded.formed decl hdecl) (hgrounded.properties decl hdecl)
    (hgrounded.indexed decl hdecl)

theorem Grounded.conformsTo_fresh (hgrounded : codec.Grounded) (hdecl : decl ∈ codec.messages) :
    ConformsTo codec fromJson decl (codec.fresh decl) :=
  conformsTo_of_newMessage hgrounded hdecl (hgrounded.newMessage_eq hdecl)

/-- Making a message, reading no bytes and reading an empty object come to the same. -/
theorem Grounded.new_eq_fresh (hgrounded : codec.Grounded) {typeName : String}
    (htype : codec.message typeName = .ok decl) :
    codec.create typeName = .ok (codec.fresh decl) ∧
      codec.decode typeName [] = .ok (codec.fresh decl) ∧
      codec.ofJson typeName (.object []) = .ok (codec.fresh decl) := by
  have hnew := hgrounded.newMessage_eq (mem_of_message htype)
  have hnone : ∀ field : Field, firstPresent? [] field.info.readNames = none := by
    intro field
    simp [firstPresent?]
  have hread (fields : List Field) (m : Message) : codec.fieldsOfJson decl [] fields m = .ok m := by
    induction fields with
    | nil => rfl
    | cons field rest ih => rw [fieldsOfJson, hnone, ih]
  refine ⟨?_, ?_, ?_⟩
  · rw [create, htype]
    exact hnew
  · simp only [decode, htype, hnew]
    rw [decodeInto]
    rfl
  · simp only [ofJson, htype, hnew, jsonView, memberViews]
    exact hread _ _

/-- Every field of a new message is left out. -/
theorem Grounded.isLeftOut_fresh (hgrounded : codec.Grounded) (henums : codec.DistinctEnumNames)
    (hdecl : decl ∈ codec.messages) {field : Field} (hf : field ∈ decl.fields) {v : Value}
    (hv : (codec.fresh decl).get? field.info.name = some v) (path : String) :
    codec.isLeftOut field path v = .ok true := by
  have hholds := (hgrounded.conformsTo_fresh hdecl).holds hf hv
  rw [get?_fresh (hgrounded.properties decl hdecl) hf] at hv
  exact hholds.isLeftOut_of_default (hgrounded.formed decl hdecl field hf) (henums.namesApart _)
    hv path

/-- A new message is shown with those of its fields that have a default, if defaults are to be
shown, and else as an empty object. -/
theorem Grounded.toJsonAs_fresh (hgrounded : codec.Grounded) (henums : codec.DistinctEnumNames)
    (hdecl : decl ∈ codec.messages) :
    ∃ members, codec.toJsonAs decl (codec.fresh decl) = .ok (.object members) ∧
      ∀ name, name ∈ members.map Prod.fst ↔ codec.emitDefaults = true ∧
        ∃ field ∈ decl.fields, field.info.initial ≠ .unset ∧
          field.info.outputName codec.protoNames = name := by
  obtain ⟨members, hjson, hkeys⟩ :=
    (hgrounded.conformsTo_fresh hdecl).exists_toJsonAs fun _ _ hv => hv
  refine ⟨members, hjson, fun name => ?_⟩
  rw [hkeys]
  cases hemit : codec.emitDefaults with
  | false =>
    -- What is not left out would have to be shown, and nothing is.
    simp only [Bool.false_eq_true, false_and, iff_false]
    rintro ⟨field, hf, ⟨v, hv, hshown⟩, -⟩
    rw [isShown_eq hemit, hgrounded.isLeftOut_fresh henums hdecl hf hv] at hshown
    cases hshown
  | true =>
    rw [eq_self, true_and]
    refine exists_congr fun field => and_congr_right fun hf => and_congr_left fun _ => ?_
    simp only [isShown_of_emitDefaults hemit, and_true,
      get?_fresh (hgrounded.properties decl hdecl) hf]
    rw [← Option.isSome_iff_exists, defaultOf_isSome_iff (hgrounded.formed decl hdecl field hf)
      (hgrounded.indexed decl hdecl field hf)]

/-- Canonical enums, and keys of any text. -/
def canonicalEnums : Discipline := ⟨EnumDecl.Canonical, fun _ _ => True, fun _ _ => True⟩

/-- A message that takes no bytes is a new one once it is filled. -/
theorem Grounded.encodeAs_eq_nil_iff (hgrounded : codec.Grounded)
    (henums : codec.DistinctEnumNames) (hdecl : decl ∈ codec.messages)
    (h : ConformsTo codec canonicalEnums decl m) (hplain : NoNegativeZero decl m) :
    codec.encodeAs decl m = .ok [] ↔ codec.filled decl m = codec.fresh decl := by
  rw [h.encodeAs_eq_nil_iff, h.filled_eq_fresh_iff (hgrounded.properties decl hdecl)]
  refine forall₂_congr fun field hf => forall₂_congr fun v hv => ?_
  have hholds := h.holds hf hv
  have hformed := hgrounded.formed decl hdecl field hf
  have hnames : codec.NamesApart field.contentKind := henums.namesApart _
  constructor
  · exact hholds.default_of_isLeftOut (fun _ _ hv => hv) hformed hnames
      fun himplicit => hplain field hf himplicit v hv
  · exact fun hdefault => hholds.isLeftOut_of_default hformed hnames hdefault _

/-- A new message of a type is what no bytes and the empty object are read as, under any name that
finds the type. It takes no bytes, and its JSON is empty, or if defaults are to be shown has the
names of the fields that have one. Apart from fields that are absent, no other message with
canonical enums and plain zeros takes no bytes. -/
theorem encode_eq_nil_iff_filled (hresolved : codec.Resolved)
    (hproperties : ∀ decl ∈ codec.messages, decl.DistinctProperties)
    (henums : codec.DistinctEnumNames)
    (hindexed : ∀ decl ∈ codec.messages, ∀ field ∈ decl.fields,
      codec.Indexed field.contentKind) (htype : codec.message decl.fqName = .ok decl) :
    ∃ start,
      (∀ typeName, codec.message typeName = .ok decl → codec.create typeName = .ok start ∧
        codec.decode typeName [] = .ok start ∧
        codec.ofJson typeName (.object []) = .ok start) ∧
      codec.encode start = .ok [] ∧
      (codec.emitDefaults = false → codec.toJson start = .ok (.object [])) ∧
      (codec.emitDefaults = true → ∃ members, codec.toJson start = .ok (.object members) ∧
        ∀ name, name ∈ members.map Prod.fst ↔ ∃ field ∈ decl.fields,
          field.info.initial ≠ .unset ∧ field.info.outputName codec.protoNames = name) ∧
      ∀ m, ConformsTo codec canonicalEnums decl m → NoNegativeZero decl m →
        (codec.encode m = .ok [] ↔ codec.filled decl m = start) := by
  have hgrounded := hresolved.grounded hproperties hindexed
  have hdecl := mem_of_message htype
  have hencode {m : Message} (hm : m.typeName = decl.fqName) :
      codec.encode m = codec.encodeAs decl m := by
    simp only [encode, hm, htype]
  have hjson : codec.toJson (codec.fresh decl) = codec.toJsonAs decl (codec.fresh decl) := by
    simp only [toJson, typeName_fresh, htype]
  obtain ⟨members, hmembers, hkeys⟩ := hgrounded.toJsonAs_fresh henums hdecl
  refine ⟨codec.fresh decl, fun _ hname => hgrounded.new_eq_fresh hname, ?_, ?_, ?_, ?_⟩
  · rw [hencode (typeName_fresh codec decl),
      (hgrounded.conformsTo_fresh hdecl).encodeAs_eq_nil_iff]
    exact fun field hf v hv => hgrounded.isLeftOut_fresh henums hdecl hf hv _
  · intro hemit
    have hempty : members = [] := by
      cases members with
      | nil => rfl
      | cons p rest => simpa [hemit] using (hkeys p.1).1 List.mem_cons_self
    rw [hjson, hmembers, hempty]
  · intro hemit
    refine ⟨members, hjson.trans hmembers, fun name => ?_⟩
    rw [hkeys, hemit, eq_self, true_and]
  · intro m hm hplain
    rw [hencode hm.typeName]
    exact hgrounded.encodeAs_eq_nil_iff henums hdecl hm hplain

end

instance : DecidableRel canonicalEnums.enum := fun e v =>
  inferInstanceAs (Decidable (e.Canonical v))

instance : DecidableRel canonicalEnums.key := fun _ _ => isTrue trivial

instance : DecidableRel canonicalEnums.level := fun _ _ => isTrue trivial

/-- A tree of which only the empty list of branches is there takes no bytes and is new once it is
filled. A tree with a mark is not. -/
theorem encode_eq_nil_iff_filled_grove :
    (grove .double {}).Resolved ∧ (grove .double {}).Valid ∧
      (grove .double {}).encode ⟨"grove.Tree", [("branches", .list [])]⟩ = .ok [] ∧
      ∃ start, (grove .double {}).create "grove.Tree" = .ok start ∧
        (grove .double {}).decode "grove.Tree" [] = .ok start ∧
        (grove .double {}).ofJson "grove.Tree" (.object []) = .ok start ∧
        (grove .double {}).encode start = .ok [] ∧
        (grove .double {}).toJson start = .ok (.object []) ∧
        (grove .double {}).filled (groveTree .double)
          ⟨"grove.Tree", [("branches", .list [])]⟩ = start ∧
        (grove .double {}).filled (groveTree .double) (markedTree "-3" []) ≠ start := by
  have htree : (grove .double {}).message (groveTree .double).fqName = .ok (groveTree .double) := by
    decide +kernel
  have hempty : (grove .double {}).encode ⟨"grove.Tree", [("branches", .list [])]⟩ = .ok [] := by
    decide +kernel
  obtain ⟨start, hstart, hencode, hjson, -, honly⟩ :=
    encode_eq_nil_iff_filled resolved_grove_double valid_grove_double.properties
      valid_grove_double.enums valid_grove_double.indexed htree
  obtain ⟨hcreate, hdecode, hofJson⟩ := hstart "grove.Tree" htree
  refine ⟨resolved_grove_double, valid_grove_double, hempty, start, hcreate, hdecode, hofJson,
    hencode, hjson rfl, ?_, fun heq => ?_⟩
  · exact (honly _ (conformsTo_of_within 1 (by decide +kernel)) (by decide +kernel)).1 hempty
  · have hmarked := (honly (markedTree "-3" []) (conformsTo_of_within 1 (by decide +kernel))
      (by decide +kernel)).2 heq
    exact absurd hmarked (by decide +kernel)

end ProtoStub.Codec
