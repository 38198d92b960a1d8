import Mathlib
import ProtoStub.Proofs.Decision
import ProtoStub.Proofs.JsonRoundTrip
import ProtoStub.Proofs.NestedMessages
import ProtoStub.Proofs.RecordNumbers
import ProtoStub.Proofs.WrittenRecords

/-!
# Both forms show the same fields

Neither the bytes nor the JSON of a message show a field that holds what a new message holds
anyway. The two writers find out in different ways: bytes are written by the shape of the field,
JSON by the shape of the value. `isLeftOut` is what they agree on. It is the negation of `isShown`
(`isShown_eq`), and a field takes no bytes exactly if it is left out
(`Holds.fieldRecords_eq_nil_iff`).

From there the keys of the JSON object (`ConformsTo.exists_toJsonAs`) and the numbers of the
records (`ConformsTo.exists_recordNumbers`) are those of the same fields, in the message itself and
in every message inside it (`sameFields_of_contains`).
-/

namespace ProtoStub

open Wire

/-- The keys of a map with one more entry. -/
theorem KeyMap.mem_keys_insert {α : Type} {m : KeyMap α} {key name : String} {value : α} :
    name ∈ (KeyMap.insert m key value).map Prod.fst ↔ key = name ∨ name ∈ m.map Prod.fst := by
  have hkeys (m : KeyMap α) : name ∈ m.map Prod.fst ↔ ¬ find? m name = none := by
    rw [find?_eq_none]
    simp
  rw [hkeys, hkeys, find?_insert]
  by_cases hname : key = name <;> simp [hname]

/-! ## Bytes that are not empty -/

namespace Wire

theorem encodeTag_ne_nil (number : UInt32) (wireType : WireType) :
    encodeTag number wireType ≠ [] :=
  (isVarint_encodeVarint _).ne_nil

theorem bodyRecord_ne_nil (number : UInt32) (body : List UInt8) : bodyRecord number body ≠ [] := by
  simp [bodyRecord, encodeTag_ne_nil]

/-- Bytes hold a record unless they are empty. -/
theorem Records.eq_nil_iff {numbers : List UInt32} {bytes : List UInt8}
    (h : Records numbers bytes) : numbers = [] ↔ bytes = [] := by
  have htag {tag : List UInt8} {number : UInt32} {wireType : WireType}
      (h : IsTag tag number wireType) : tag ≠ [] := by
    obtain ⟨v, hvarint, -⟩ := h.exists_tag
    exact hvarint.ne_nil
  cases h with
  | nil => simp
  | value h => simp [htag h]
  | group h => simp [htag h]

end Wire

namespace Codec

variable {codec : Codec} {rules : Discipline} {nested : MessageDecl → Message → Prop}

theorem valueRecord_ne_nil {write : Writer (List UInt8)} {info : FieldInfo} {path : String}
    {bs : List UInt8} (h : valueRecord write info path = .ok bs) : bs ≠ [] := by
  unfold valueRecord at h
  split at h
  · cases h
  · cases h
    simp [encodeTag_ne_nil]

theorem itemRecords_eq_nil_iff {writers : List (Writer (List UInt8))} {info : FieldInfo}
    {path : String} : itemRecords info path writers = .ok [] ↔ writers = [] := by
  cases writers with
  | nil => simp [itemRecords]
  | cons write rest =>
    rw [itemRecords]
    cases hfirst : valueRecord write info path with
    | error e => simp
    | ok first => cases itemRecords info path rest <;> simp [valueRecord_ne_nil hfirst]

theorem entryRecords_eq_nil_iff {number : UInt32} {key value : FieldInfo} {path : String}
    {entries : List (String × Writer (List UInt8))} :
    codec.entryRecords number key value path entries = .ok [] ↔ entries = [] := by
  cases entries with
  | nil => simp [entryRecords]
  | cons p rest =>
    rw [entryRecords]
    cases codec.entryBytes key value path p.1 p.2 with
    | error e => simp
    | ok entry =>
      cases codec.entryRecords number key value path rest <;> simp [bodyRecord_ne_nil]

theorem listRecords_eq_nil_iff {writers : List (Writer (List UInt8))} {info : FieldInfo}
    {path : String} : listRecords info path writers = .ok [] ↔ writers = [] := by
  rw [listRecords]
  by_cases hempty : writers.isEmpty = true
  · rw [if_pos hempty, ← List.isEmpty_iff]
    simp [hempty]
  · rw [if_neg hempty]
    by_cases hpack : info.kind.isPackable = true
    · rw [if_pos hpack, ← List.isEmpty_iff]
      cases packedBytes info.kind path writers <;>
        simp [Functor.map, Except.map, bodyRecord_ne_nil, hempty]
    · rw [if_neg hpack, itemRecords_eq_nil_iff]

/-! ## What is left out -/

/-- Whether a field shows nothing of what it holds: an empty list or map, or the zero of a field
that cannot be absent. -/
def isLeftOut (codec : Codec) (field : Field) (path : String) (value : Value) :
    Except Error Bool :=
  match value with
  | .map entries => .ok entries.isEmpty
  | .list items => .ok items.isEmpty
  | value => if field.implicitPresence then codec.isZero field.info.kind path value else .ok false

theorem isShown_eq (h : codec.emitDefaults = false) (field : Field) (path : String) (v : Value) :
    codec.isShown field path v = (!·) <$> codec.isLeftOut field path v := by
  have hsingle (zero : Except Error Bool) :
      (if field.implicitPresence && !codec.emitDefaults then (!·) <$> zero else .ok true) =
        (!·) <$> (if field.implicitPresence then zero else .ok false) := by
    cases field.implicitPresence <;> simp [h]
  cases v with
  | map entries => simp [isShown, isLeftOut, h, Functor.map, Except.map]
  | list items => simp [isShown, isLeftOut, h, Functor.map, Except.map]
  | _ => exact hsingle _

theorem Conforms.isLeftOut_eq {info : FieldInfo} {v : Value}
    (h : Conforms codec rules nested info.kind v) (path : String) :
    codec.isLeftOut (.plain info) path v =
      if (Field.plain info).implicitPresence then codec.isZero info.kind path v
      else .ok false := by
  generalize hkind : info.kind = kind at h
  cases h with
  | message => simp only [isLeftOut, Field.info, hkind]
  | scalar hfits => cases hfits <;> simp only [isLeftOut, Field.info, hkind]

/-- Whether a field is left out can always be told of a message whose enums have numbers. -/
theorem Holds.exists_isLeftOut (hnumbered : ∀ e v, rules.enum e v → e.Numbered v) {field : Field}
    {v : Value} (h : Holds codec rules nested field v) (path : String) :
    ∃ hidden, codec.isLeftOut field path v = .ok hidden := by
  cases h with
  | list => exact ⟨_, rfl⟩
  | map => exact ⟨_, rfl⟩
  | @single info v hsingle hv =>
    rw [hv.isLeftOut_eq]
    cases himplicit : (Field.plain info).implicitPresence with
    | false => exact ⟨false, rfl⟩
    | true =>
      have hfits := ((Holds.single hsingle hv).fits_of_implicit himplicit).1.mono hnumbered
      exact exists_isZero hfits path

/-- A field takes no bytes exactly if it is left out. -/
theorem Holds.fieldRecords_eq_nil_iff {field : Field} {v : Value}
    (h : Holds codec rules nested field v) (path : String) :
    codec.fieldRecords field path (v.view codec.valueBytes) = .ok [] ↔
      codec.isLeftOut field path v = .ok true := by
  cases h with
  | @list info items hrep hvs =>
    rw [fieldRecords, if_pos hrep]
    simp only [Value.view, Value.writers_eq_map]
    rw [listRecords_eq_nil_iff]
    simp [isLeftOut]
  | @map info key value entries hsorted hkeys hvs =>
    simp only [fieldRecords, Value.view, Value.entryWriters_eq_map]
    rw [entryRecords_eq_nil_iff]
    simp [isLeftOut]
  | @single info v hsingle hv =>
    have hwritten : valueRecord (v.view codec.valueBytes).write info path ≠ .ok [] :=
      fun hnil => valueRecord_ne_nil hnil rfl
    rw [fieldRecords, if_neg (by rw [hsingle]; decide), singleRecord, Value.view_value,
      hv.isLeftOut_eq, Field.info]
    cases (Field.plain info).implicitPresence with
    | false => simp [hwritten]
    | true =>
      rw [if_pos rfl, if_pos rfl]
      cases codec.isZero info.kind path v with
      | error e => simp
      | ok zero => cases zero <;> simp [hwritten]

/-! ## What JSON shows -/

theorem isShown_of_emitDefaults (h : codec.emitDefaults = true) (field : Field) (path : String)
    (v : Value) : codec.isShown field path v = .ok true := by
  cases v <;> simp [isShown, h]

theorem Holds.exists_isShown_of_numbered (hnumbered : ∀ e v, rules.enum e v → e.Numbered v)
    {field : Field} {v : Value} (h : Holds codec rules nested field v) (path : String) :
    ∃ shown, codec.isShown field path v = .ok shown := by
  cases hemit : codec.emitDefaults with
  | true => exact ⟨true, isShown_of_emitDefaults hemit field path v⟩
  | false =>
    obtain ⟨hidden, hhidden⟩ := h.exists_isLeftOut hnumbered path
    exact ⟨!hidden, by rw [isShown_eq hemit, hhidden]; rfl⟩

theorem exists_itemsJson {kind : FieldKind} {path : String} {writers : List (Writer Json)}
    (h : ∀ write ∈ writers, ∃ json, write kind path = .ok json) :
    ∃ items, itemsJson kind path writers = .ok items := by
  induction writers with
  | nil => exact ⟨[], rfl⟩
  | cons write rest ih =>
    rw [List.forall_mem_cons] at h
    obtain ⟨⟨first, hfirst⟩, hrest⟩ := h
    obtain ⟨items, hitems⟩ := ih hrest
    exact ⟨first :: items, by rw [itemsJson, hfirst, hitems]; rfl⟩

theorem exists_entriesJson {kind : FieldKind} {path : String}
    {entries : List (String × Writer Json)}
    (h : ∀ p ∈ entries, ∃ json, p.2 kind path = .ok json) (members : KeyMap Json) :
    ∃ shown, entriesJson kind path members entries = .ok shown := by
  induction entries generalizing members with
  | nil => exact ⟨members, rfl⟩
  | cons p rest ih =>
    rw [List.forall_mem_cons] at h
    obtain ⟨⟨value, hvalue⟩, hrest⟩ := h
    obtain ⟨shown, hshown⟩ := ih hrest (KeyMap.insert members p.1 value)
    exact ⟨shown, by simp only [entriesJson, hvalue, hshown]⟩

/-- A message can be shown as one of a type. -/
def Showable (codec : Codec) (decl : MessageDecl) (m : Message) : Prop :=
  ∃ json, codec.toJsonAs decl m = .ok json

theorem Conforms.exists_json {kind : FieldKind} {v : Value}
    (h : Conforms codec rules (Showable codec) kind v) (path : String) :
    ∃ json, (v.view codec.valueJson).write kind path = .ok json := by
  cases h with
  | scalar hfits => cases hfits with
    | @enum _ _ e => cases e <;> exact ⟨_, rfl⟩
    | _ => exact ⟨_, rfl⟩
  | @message target decl m hdecl hm =>
    obtain ⟨json, hjson⟩ := hm
    refine ⟨json, ?_⟩
    obtain ⟨typeName, fields⟩ := m
    simp only [Value.view, valueJson, hdecl]
    exact hjson

theorem Holds.exists_contentJson {field : Field} {v : Value}
    (h : Holds codec rules (Showable codec) field v) (path : String) :
    ∃ json, contentJson field path (v.view codec.valueJson) = .ok json := by
  cases h with
  | @single info v hsingle hv =>
    obtain ⟨json, hjson⟩ := hv.exists_json path
    refine ⟨json, ?_⟩
    rw [← hjson]
    simp only [contentJson, hsingle, Bool.false_eq_true, if_false]
  | @list info items hrep hvs =>
    have hitems : ∀ write ∈ items.map fun v => (v.view codec.valueJson).write,
        ∃ json, write info.kind path = .ok json :=
      List.forall_mem_map.2 fun v hv => (hvs v hv).exists_json path
    obtain ⟨shown, hshown⟩ := exists_itemsJson hitems
    refine ⟨.array shown, ?_⟩
    simp only [contentJson, hrep, if_true, Value.view, Value.writers_eq_map, hshown]
    rfl
  | @map info key value entries hsorted hkeys hvs =>
    have hentries : ∀ q ∈ entries.map fun p : String × Value =>
        (p.1, (p.2.view codec.valueJson).write), ∃ json, q.2 value.info.kind path = .ok json :=
      List.forall_mem_map.2 fun p hp => (hvs p hp).exists_json path
    obtain ⟨shown, hshown⟩ := exists_entriesJson hentries []
    refine ⟨.object shown, ?_⟩
    simp only [contentJson, Value.view, Value.entryWriters_eq_map, hshown]
    rfl

section

variable {decl : MessageDecl} {m : Message}

/-- What is shown of a field that holds something showable, and whether there is anything. -/
theorem exists_memberOf (hnumbered : ∀ e v, rules.enum e v → e.Numbered v) {field : Field}
    (h : ∀ v, m.get? field.info.name = some v → Holds codec rules (Showable codec) field v) :
    ∃ shown, codec.memberOf decl m field = .ok shown ∧
      (shown.isSome = true ↔ ∃ v, m.get? field.info.name = some v ∧
        codec.isShown field (fieldPath decl field.info) v = .ok true) := by
  unfold memberOf
  cases hv : m.get? field.info.name with
  | none => exact ⟨none, rfl, by simp⟩
  | some v =>
    obtain ⟨visible, hvisible⟩ :=
      (h v hv).exists_isShown_of_numbered hnumbered (fieldPath decl field.info)
    obtain ⟨json, hjson⟩ := (h v hv).exists_contentJson (fieldPath decl field.info)
    simp only [hvisible, hjson]
    cases visible with
    | false => exact ⟨none, rfl, by simp [hvisible]⟩
    | true => exact ⟨some json, rfl, by simp [hvisible]⟩

theorem mem_keys_showAll {shown : Field → Option Json} {fields : List Field}
    {members : KeyMap Json} {name : String} :
    name ∈ (codec.showAll shown fields members).map Prod.fst ↔
      name ∈ members.map Prod.fst ∨ ∃ field ∈ fields, (shown field).isSome = true ∧
        field.info.outputName codec.protoNames = name := by
  induction fields generalizing members with
  | nil => simp [showAll]
  | cons field rest ih =>
    rw [showAll]
    cases hshown : shown field with
    | none => simp [ih, hshown]
    | some json =>
      rw [ih, KeyMap.mem_keys_insert]
      simp only [List.exists_mem_cons_iff, hshown, Option.isSome_some, true_and]
      rw [or_assoc, or_left_comm]

/-- A message whose enums have numbers is shown as an object that has the names of the fields that
are shown. -/
theorem ConformsTo.exists_toJsonAs (hnumbered : ∀ e v, rules.enum e v → e.Numbered v)
    (h : ConformsTo codec rules decl m) :
    ∃ members, codec.toJsonAs decl m = .ok (.object members) ∧
      ∀ name, name ∈ members.map Prod.fst ↔ ∃ field ∈ decl.fields,
        (∃ v, m.get? field.info.name = some v ∧
          codec.isShown field (fieldPath decl field.info) v = .ok true) ∧
        field.info.outputName codec.protoNames = name := by
  refine ConformsTo.induct (fun decl m _ ih => ?_) h
  have hmember : ∀ field ∈ decl.fields, ∃ shown, codec.memberOf decl m field = .ok shown ∧
      (shown.isSome = true ↔ ∃ v, m.get? field.info.name = some v ∧
        codec.isShown field (fieldPath decl field.info) v = .ok true) := by
    intro field hf
    refine exists_memberOf hnumbered fun v hv => (ih field hf v hv).imp ?_
    rintro _ _ x - - ⟨-, members, hx, -⟩
    exact ⟨_, hx⟩
  choose! shown hshown hiff using hmember
  refine ⟨codec.showAll shown decl.fields [], ?_, fun name => ?_⟩
  · rw [toJsonAs, membersOf_eq hshown]
    rfl
  · rw [mem_keys_showAll, List.map_nil, or_iff_right List.not_mem_nil]
    refine exists_congr fun field => and_congr_right fun hf => ?_
    rw [hiff field hf]

/-! ## What is written -/

/-- A field is there and not left out. -/
def ShowsField (codec : Codec) (decl : MessageDecl) (m : Message) (field : Field) : Prop :=
  ∃ v, m.get? field.info.name = some v ∧
    codec.isLeftOut field (fieldPath decl field.info) v = .ok false

theorem presentRecords_eq_nil_iff (hnumbered : ∀ e v, rules.enum e v → e.Numbered v)
    {field : Field}
    (h : ∀ v, m.get? field.info.name = some v → Holds codec rules nested field v) :
    codec.presentRecords decl (Value.fieldViews codec.valueBytes m.fields) field = .ok [] ↔
      ¬ codec.ShowsField decl m field := by
  rw [presentRecords_eq, ShowsField]
  cases hv : m.get? field.info.name with
  | none => simp
  | some v =>
    obtain ⟨hidden, hhidden⟩ := (h v hv).exists_isLeftOut hnumbered (fieldPath decl field.info)
    simp only [(h v hv).fieldRecords_eq_nil_iff]
    simp [hhidden]

/-- What is written of a field are records of its number, and none if the field is left out. -/
theorem presentRecords_numbers (hnumbered : ∀ e v, rules.enum e v → e.Numbered v)
    {field : Field} (hnumber : IsFieldNumber field.info.number)
    (h : ∀ v, m.get? field.info.name = some v → Holds codec rules nested field v)
    {bs : List UInt8}
    (hbs : codec.presentRecords decl (Value.fieldViews codec.valueBytes m.fields) field = .ok bs)
    (hlen : bs.length < UInt64.size) :
    ∃ numbers, Records numbers bs ∧
      ∀ n, n ∈ numbers ↔ field.info.number = n ∧ codec.ShowsField decl m field := by
  have hof : OfNumber field.info.number bs := by
    rw [presentRecords_eq] at hbs
    cases hv : m.get? field.info.name with
    | none =>
      rw [hv] at hbs
      cases hbs
      exact .nil
    | some v =>
      rw [hv] at hbs
      exact fieldRecords_ofNumber hnumber hbs hlen
  obtain ⟨numbers, hrecords, hall⟩ := hof
  refine ⟨numbers, hrecords, fun n => ?_⟩
  have hempty : numbers = [] ↔ ¬ codec.ShowsField decl m field := by
    rw [hrecords.eq_nil_iff, ← presentRecords_eq_nil_iff hnumbered h, hbs, Except.ok.injEq]
  rw [← not_not (a := codec.ShowsField decl m field), ← hempty]
  constructor
  · intro hn
    exact ⟨(hall n hn).symm, List.ne_nil_of_mem hn⟩
  · rintro ⟨rfl, hne⟩
    obtain ⟨k, hk⟩ := List.exists_mem_of_ne_nil numbers hne
    rwa [← hall k hk]

theorem recordsOf_numbers (hnumbered : ∀ e v, rules.enum e v → e.Numbered v) {fields : List Field}
    (hrange : ∀ field ∈ fields, IsFieldNumber field.info.number)
    (h : ∀ field ∈ fields, ∀ v, m.get? field.info.name = some v →
      Holds codec rules nested field v) {bs : List UInt8}
    (hbs : codec.recordsOf decl (Value.fieldViews codec.valueBytes m.fields) fields = .ok bs)
    (hlen : bs.length < UInt64.size) :
    ∃ numbers, Records numbers bs ∧ ∀ n, n ∈ numbers ↔
      ∃ field ∈ fields, field.info.number = n ∧ codec.ShowsField decl m field := by
  induction fields generalizing bs with
  | nil =>
    cases hbs
    exact ⟨[], .nil, by simp⟩
  | cons field rest ih =>
    rw [List.forall_mem_cons] at hrange h
    rw [recordsOf] at hbs
    cases hfirst : codec.presentRecords decl (Value.fieldViews codec.valueBytes m.fields) field with
    | error e =>
      rw [hfirst] at hbs
      cases hbs
    | ok first =>
      cases hmore : codec.recordsOf decl (Value.fieldViews codec.valueBytes m.fields) rest with
      | error e =>
        simp only [hfirst, hmore] at hbs
        cases hbs
      | ok more =>
        simp only [hfirst, hmore] at hbs
        cases hbs
        rw [List.length_append] at hlen
        obtain ⟨own, howns, hown⟩ :=
          presentRecords_numbers hnumbered hrange.1 h.1 hfirst (by omega)
        obtain ⟨others, hrecords, hothers⟩ := ih hrange.2 h.2 hmore (by omega)
        refine ⟨own ++ others, howns.append hrecords, fun n => ?_⟩
        rw [List.mem_append, hown, hothers, List.exists_mem_cons_iff]

/-- The records of a message that is written have the numbers of the fields that are not left
out. -/
theorem ConformsTo.exists_recordNumbers (hnumbered : ∀ e v, rules.enum e v → e.Numbered v)
    (hrange : ∀ field ∈ decl.fields, IsFieldNumber field.info.number)
    (h : ConformsTo codec rules decl m) {bs : List UInt8} (hbs : codec.encodeAs decl m = .ok bs)
    (hlen : bs.length < UInt64.size) :
    ∃ numbers, recordNumbers (.start bs) = .ok numbers ∧ ∀ n, n ∈ numbers ↔
      ∃ field ∈ decl.fields, field.info.number = n ∧ codec.ShowsField decl m field := by
  obtain ⟨numbers, hrecords, hnumbers⟩ :=
    recordsOf_numbers hnumbered hrange (fun field hf v hv => h.holds hf hv) hbs hlen
  exact ⟨numbers, hrecords.recordNumbers_eq 0, hnumbers⟩

/-! ## Messages inside -/

theorem ConformsTo.of_contains (h : ConformsTo codec rules decl m) {part : MessageDecl}
    {x : Message} (hpart : Contains codec decl m part x) : ConformsTo codec rules part x := by
  induction hpart with
  | self => exact h
  | nested hf hv hx hkind hinner _ ih =>
    exact ih ((h.holds hf hv).nested_of_mem_messages hkind hinner hx)

theorem ConformsTo.key_of_keyIn (h : ConformsTo codec rules decl m) {kind : FieldKind}
    {text : String} (hkey : KeyIn codec decl m kind text) : rules.key kind text := by
  induction hkey with
  | own hf hv hkey =>
    cases h.holds hf hv with
    | single | list => cases hkey
    | map hsorted hkeys hvs =>
      obtain ⟨p, hp, heq⟩ := List.mem_map.1 hkey
      cases heq
      exact hkeys p hp
  | nested hf hv hx hkind hinner _ ih =>
    exact ih ((h.holds hf hv).nested_of_mem_messages hkind hinner hx)

/-! ## Both forms -/

/-- What is asked of a message that is to be written: its enums have numbers, and the texts of its
keys are keys of the kinds that its maps have. -/
def writable : Discipline :=
  ⟨EnumDecl.Numbered, fun kind text => (keyOfText? kind text).isSome = true, fun _ _ => True⟩

/-- The fields of a type have numbers of their own, in the range of field numbers. -/
structure WellNumbered (decl : MessageDecl) : Prop where
  distinct : decl.DistinctNumbers
  range : ∀ field ∈ decl.fields, IsFieldNumber field.info.number

/-- The JSON is an object, and its keys are the names of the fields whose numbers the records of the
bytes have. Lengths are written in 64 bits, so the bytes have to be fewer than 2^64. -/
def SameFields (codec : Codec) (decl : MessageDecl) (json : Except Error Json)
    (bytes : Except Error (List UInt8)) : Prop :=
  ∃ members bs, json = .ok (.object members) ∧ bytes = .ok bs ∧
    (bs.length < UInt64.size → ∃ numbers, recordNumbers (.start bs) = .ok numbers ∧
      ∀ name, name ∈ members.map Prod.fst ↔ ∃ field ∈ decl.fields,
        field.info.number ∈ numbers ∧ field.info.outputName codec.protoNames = name)

theorem ConformsTo.sameFields (hemit : codec.emitDefaults = false) (hdecl : WellNumbered decl)
    (h : ConformsTo codec writable decl m) :
    SameFields codec decl (codec.toJsonAs decl m) (codec.encodeAs decl m) := by
  have hnumbered : ∀ e v, writable.enum e v → e.Numbered v := fun _ _ hv => hv
  obtain ⟨members, hjson, hkeys⟩ := h.exists_toJsonAs hnumbered
  obtain ⟨bs, hbs⟩ := (encodeAs_eq_ok_iff hnumbered h).2 fun _ _ hkey => h.key_of_keyIn hkey
  refine ⟨members, bs, hjson, hbs, fun hlen => ?_⟩
  obtain ⟨numbers, hnumbers, hmem⟩ := h.exists_recordNumbers hnumbered hdecl.range hbs hlen
  refine ⟨numbers, hnumbers, fun name => ?_⟩
  rw [hkeys]
  refine exists_congr fun field => and_congr_right fun hf => and_congr_left fun _ => ?_
  -- A number belongs to one field, so it is among the records only if that field is shown.
  have hown : field.info.number ∈ numbers ↔ codec.ShowsField decl m field := by
    rw [hmem]
    constructor
    · rintro ⟨g, hg, hnumber, hshows⟩
      rwa [← List.inj_on_of_nodup_map hdecl.distinct hg hf hnumber]
    · exact fun hshows => ⟨field, hf, rfl, hshows⟩
  rw [hown]
  refine exists_congr fun v => and_congr_right fun _ => ?_
  rw [isShown_eq hemit]
  cases codec.isLeftOut field (fieldPath decl field.info) v with
  | error e => simp [Functor.map, Except.map]
  | ok hidden => simp [Functor.map, Except.map]

/-- A message whose enums have numbers and whose keys are of their kinds is written both as JSON
and as bytes, and unless defaults are to be shown, both show the same fields. So do the two forms
of every message inside it. -/
theorem sameFields_of_contains (hemit : codec.emitDefaults = false)
    (htype : codec.message m.typeName = .ok decl) (hdecl : WellNumbered decl)
    (hm : ConformsTo codec writable decl m) :
    SameFields codec decl (codec.toJson m) (codec.encode m) ∧
      ∀ part x, Contains codec decl m part x → WellNumbered part →
        SameFields codec part (codec.toJsonAs part x) (codec.encodeAs part x) := by
  constructor
  · simp only [toJson, encode, htype]
    exact hm.sameFields hemit hdecl
  · intro part x hpart hnumbers
    exact (hm.of_contains hpart).sameFields hemit hnumbers

end

instance (e : EnumDecl) : DecidablePred e.Numbered
  | .named name => inferInstanceAs (Decidable ((e.numberOf? name).isSome = true))
  | .unknown _ => isTrue trivial

instance : DecidableRel writable.enum := fun e v => inferInstanceAs (Decidable (e.Numbered v))

instance : DecidableRel writable.key := fun kind text =>
  inferInstanceAs (Decidable ((keyOfText? kind text).isSome = true))

instance : DecidableRel writable.level := fun _ _ => isTrue trivial

/-- A tree of no height with a mark and a branch, which has a mark of its own and no branches. -/
theorem sameFields_of_contains_grove :
    (grove .double {}).Resolved ∧
      ConformsTo (grove .double {}) writable (groveTree .double)
        (markedTree "-3" [markedTree "12" []]) ∧
      Contains (grove .double {}) (groveTree .double) (markedTree "-3" [markedTree "12" []])
        (groveTree .double) (markedTree "12" []) ∧
      SameFields (grove .double {}) (groveTree .double)
        ((grove .double {}).toJson (markedTree "-3" [markedTree "12" []]))
        ((grove .double {}).encode (markedTree "-3" [markedTree "12" []])) ∧
      SameFields (grove .double {}) (groveTree .double)
        ((grove .double {}).toJsonAs (groveTree .double) (markedTree "12" []))
        ((grove .double {}).encodeAs (groveTree .double) (markedTree "12" [])) := by
  have htree : (grove .double {}).message "grove.Tree" = .ok (groveTree .double) := by
    decide +kernel
  have hm : ConformsTo (grove .double {}) writable (groveTree .double)
      (markedTree "-3" [markedTree "12" []]) :=
    conformsTo_of_within 3 (by decide +kernel)
  have hinside : Contains (grove .double {}) (groveTree .double)
      (markedTree "-3" [markedTree "12" []]) (groveTree .double) (markedTree "12" []) :=
    .nested (List.mem_cons_of_mem _ List.mem_cons_self) rfl (List.mem_singleton_self _) rfl htree
      .self
  have hnumbers : WellNumbered (groveTree .double) :=
    ⟨by decide +kernel, by decide +kernel⟩
  obtain ⟨hself, hparts⟩ := sameFields_of_contains rfl htree hnumbers hm
  exact ⟨resolved_grove_double, hm, hinside, hself, hparts _ _ hinside hnumbers⟩

end Codec
end ProtoStub
