import ProtoStub.Proofs.BinaryRoundTrip
import ProtoStub.Proofs.Canonical

/-!
# Bytes one after the other merge their messages

The bytes of two messages of a type, one after the other, are read as the two messages merged.
`Message.merge` says what that is, property by property: lists are joined, maps united, single
messages merged in turn, and of a oneof only the later member stays.

The bytes of the second message are read into the first one field by field. A field of the
second finds its property as the first message left it (`recordsOf_merged`), since no other
field that is set touches it: the only properties a record unsets are other members of its
oneof, and those the second message does not have.
-/

namespace ProtoStub

/-! ## Merging -/

/-- What the property of a field becomes, given what it was. -/
abbrev Merger : Type := Field → Option Value → Value

/-- Whether a value is the zero of its kind. -/
def Codec.isZeroOf (codec : Codec) (kind : FieldKind) (v : Value) : Bool :=
  match codec.isZero kind "" v with
  | .ok zero => zero
  | .error _ => false

/-- A message with another merged into it; `parts` are the properties of the other. What the
other does not have stays, unless it has another member of the same oneof. -/
def Message.mergeParts (m : Message) (decl : MessageDecl) (parts : List (String × Merger)) :
    Message :=
  m.putAll decl.fields fun field =>
    match KeyMap.find? parts field.info.name with
    | some merger => some (merger field (m.get? field.info.name))
    | none =>
      if (decl.siblings field).any fun g => (KeyMap.find? parts g.info.name).isSome then none
      else m.get? field.info.name

mutual

/-- What a property becomes that a value is merged into. -/
def Value.merge (codec : Codec) : Value → Merger
  | .list items => fun _ old =>
    match old with
    | some (.list before) => .list (before ++ items)
    | _ => .list items
  | .map entries => fun _ old =>
    match old with
    | some (.map before) => .map (entries.foldl (fun m p => KeyMap.insert m p.1 p.2) before)
    | _ => .map entries
  | .message ⟨typeName, fields⟩ => fun field old =>
    match old, field.info.kind with
    | some (.message m), .message target =>
      match codec.message target.fqName with
      | .ok decl => .message (m.mergeParts decl (Value.mergers codec fields))
      | .error _ => .message ⟨typeName, fields⟩
    | _, _ => .message ⟨typeName, fields⟩
  | v => fun field old =>
    -- A zero cannot be told from a field that is not there.
    if field.implicitPresence && codec.isZeroOf field.info.kind v then old.getD v else v

/-- What becomes of the properties that a message is merged into. -/
def Value.mergers (codec : Codec) : List (String × Value) → List (String × Merger)
  | [] => []
  | (name, v) :: rest => (name, v.merge codec) :: Value.mergers codec rest

end

/-- A message of a type with another merged into it. -/
def Message.merge (m : Message) (codec : Codec) (decl : MessageDecl) (other : Message) : Message :=
  m.mergeParts decl (Value.mergers codec other.fields)

theorem Value.mergers_eq_map (codec : Codec) (fields : List (String × Value)) :
    Value.mergers codec fields = fields.map fun p => (p.1, p.2.merge codec) := by
  induction fields with
  | nil => rfl
  | cons p rest ih => simp only [Value.mergers, ih, List.map_cons]

theorem Message.merge_eq (m : Message) (codec : Codec) (decl : MessageDecl) (other : Message) :
    m.merge codec decl other = m.putAll decl.fields fun field =>
      match other.get? field.info.name with
      | some v => some (v.merge codec field (m.get? field.info.name))
      | none =>
        if (decl.siblings field).any fun g => (other.get? g.info.name).isSome then none
        else m.get? field.info.name := by
  rw [Message.merge, Message.mergeParts]
  simp only [Value.mergers_eq_map, KeyMap.find?_map, Option.isSome_map]
  refine Message.putAll_congr fun field _ => ?_
  unfold Message.get?
  cases KeyMap.find? other.fields field.info.name <;> rfl

theorem Value.merge_of_fits {codec : Codec} {allowed : EnumDecl → EnumValue → Prop}
    {kind : FieldKind} {v : Value} (h : Codec.Fits codec allowed kind v) (field : Field)
    (old : Option Value) :
    v.merge codec field old =
      if field.implicitPresence && codec.isZeroOf field.info.kind v then old.getD v else v := by
  cases h <;> rfl

theorem Value.merge_message {codec : Codec} {info : FieldInfo} {target : TypeRef}
    {decl : MessageDecl} (hkind : info.kind = .message target)
    (hdecl : codec.message target.fqName = .ok decl) (m other : Message) :
    (Value.message other).merge codec (.plain info) (some (.message m)) =
      .message (m.merge codec decl other) := by
  obtain ⟨typeName, fields⟩ := other
  simp only [Value.merge, Field.info, hkind, hdecl, Message.merge]

theorem Value.merge_message_none (codec : Codec) (field : Field) (other : Message) :
    (Value.message other).merge codec field none = .message other := by
  obtain ⟨typeName, fields⟩ := other
  simp only [Value.merge]

namespace Codec

open Wire

variable {codec : Codec}

/-- Whether a value is zero does not depend on how its field is called. -/
theorem isZeroOf_of_isZero {kind : FieldKind} {path : String} {v : Value} {zero : Bool}
    (h : codec.isZero kind path v = .ok zero) : codec.isZeroOf kind v = zero := by
  suffices hsame : codec.isZero kind "" v = .ok zero by rw [Codec.isZeroOf, hsame]
  cases v with
  | enum e =>
    cases kind with
    | enum target =>
      obtain ⟨number, hnumber, rfl⟩ := exists_of_map_eq_ok h
      cases e with
      | unknown n =>
        cases hnumber
        rfl
      | named name =>
        -- The path is only told where the name is not declared.
        obtain ⟨e, he, hfound⟩ := Except.exists_of_bind hnumber
        simp only [isZero, numberOfEnum, he, bind, Except.bind]
        cases hname : e.numberOf? name with
        | none =>
          rw [hname] at hfound
          cases hfound
        | some n =>
          rw [hname] at hfound
          cases hfound
          rfl
    | _ => exact h
  | _ => exact h

/-! ## Steady messages -/

/-- What is asked of a message that writing and reading give back as it is. -/
def steady (codec : Codec) : Discipline :=
  canonical fun decl m => OneOfEach decl m ∧ NoNegativeZero decl m ∧ Complete codec decl m

theorem ConformsTo.revise_settle_eq_self {decl : MessageDecl} {m : Message}
    (h : ConformsTo codec codec.steady decl m) : m.revise codec codec.settle decl = m := by
  refine h.revise_eq_self fun decl m hm field hf => ?_
  obtain ⟨-, hzeros, hcomplete⟩ := hm.level
  cases hv : m.get? field.info.name with
  | none =>
    rw [settle_none]
    cases hdefault : codec.defaultOf field with
    | none => rfl
    | some w =>
      have := hcomplete field hf (by rw [hdefault]; rfl)
      rw [hv] at this
      cases this
  | some v =>
    cases himplicit : field.implicitPresence with
    | false => exact settle_explicit codec himplicit v
    | true =>
      rw [settle_implicit codec himplicit, Value.plainZero_of_not (hzeros field hf himplicit v hv)]

theorem ConformsTo.steady_returns (hsound : codec.Sound) {decl : MessageDecl}
    (hdecl : decl ∈ codec.messages) {m : Message} (h : ConformsTo codec codec.steady decl m) :
    Returns codec decl m :=
  h.returns hsound (fun _ _ hlevel => hlevel.1) hdecl

/-! ## Values merged into properties -/

/-- A message is written, and what is written merges it into any other of its type. -/
def Merges (codec : Codec) (decl : MessageDecl) (m : Message) : Prop :=
  ∃ body, codec.encodeAs decl m = .ok body ∧
    (body.length < UInt64.size → ∀ s, ConformsTo codec codec.steady decl s →
      Leads codec (slotsOf decl) body s (s.merge codec decl m))

/-- What a property can be before something is merged into it. -/
def Ready (codec : Codec) (field : Field) (old : Option Value) : Prop :=
  (∀ w, old = some w → Holds codec codec.steady (ConformsTo codec codec.steady) field w) ∧
    ((codec.defaultOf field).isSome = true → old.isSome = true)

theorem ConformsTo.ready {decl : MessageDecl} {m : Message}
    (h : ConformsTo codec codec.steady decl m) {field : Field} (hf : field ∈ decl.fields) :
    Ready codec field (m.get? field.info.name) :=
  ⟨fun _ hw => h.holds hf hw, h.level.2.2 field hf⟩

/-- Bytes that merge a value into the property of a field. -/
def Joins (codec : Codec) (decl : MessageDecl) (field : Field) (v : Value) (bs : List UInt8) :
    Prop :=
  ∀ s : Message, s.Sorted → Ready codec field (s.get? field.info.name) →
    Leads codec (slotsOf decl) bs s
      ((slotOf decl field).store s (some (v.merge codec field (s.get? field.info.name))))

variable {decl : MessageDecl}

/-- A field with a default is in no oneof, so that nothing is unset with it. -/
theorem unrivalled_of_default (hsound : codec.Sound) (hdecl : decl ∈ codec.messages)
    {field : Field} (hf : field ∈ decl.fields) (hdefault : (codec.defaultOf field).isSome = true)
    (s : Message) : (slotOf decl field).Unrivalled s := by
  intro name hname
  obtain ⟨g, hg, -⟩ := List.mem_map.1 hname
  obtain ⟨-, hmember, -⟩ := MessageDecl.mem_siblings.1 hg
  rw [defaultOf_of_oneof (hsound.formed decl hdecl field hf)
    (hsound.oneofs decl hdecl field hf hmember) hmember] at hdefault
  cases hdefault

/-- A scalar alone is one record, or none where it cannot be told from a field that is not
there. -/
theorem singleRecord_of_fits (hsound : codec.Sound) (hdecl : decl ∈ codec.messages)
    {info : FieldInfo} (hf : .plain info ∈ decl.fields) {v : Value}
    (hfits : Fits codec EnumDecl.Canonical info.kind v) (path : String) :
    codec.singleRecord (.plain info) path (v.view codec.valueBytes) =
      if (Field.plain info).implicitPresence && codec.isZeroOf info.kind v then .ok []
      else valueRecord (v.view codec.valueBytes).write info path := by
  cases himplicit : (Field.plain info).implicitPresence with
  | false =>
    rw [singleRecord, himplicit]
    rfl
  | true =>
    obtain ⟨-, -, hinitial⟩ := initial_implicit (hsound.formed decl hdecl _ hf) himplicit
    obtain ⟨zero, hzero, -, -⟩ := isZero_spec (hsound.enums.namesApart _) hinitial hfits path
    simp only [singleRecord, himplicit, if_true, Value.view_value, Field.info, hzero,
      isZeroOf_of_isZero hzero, Bool.true_and]
    cases zero <;> rfl

/-- The record of a scalar puts it into its property. -/
theorem valueRecord_stores (hsound : codec.Sound) (hdecl : decl ∈ codec.messages)
    {info : FieldInfo} (hf : .plain info ∈ decl.fields) (hsingle : info.repeated = false)
    {v : Value} (hfits : Fits codec EnumDecl.Canonical info.kind v) (path : String) :
    ∃ record, valueRecord (v.view codec.valueBytes).write info path = .ok record ∧
      (record.length < UInt64.size → ∀ s, Leads codec (slotsOf decl) record s
        ((slotOf decl (.plain info)).store s (some v))) := by
  obtain ⟨bs, hbs, htakes⟩ := scalarBytes_takes hsound.enums hfits path
  refine ⟨encodeTag info.number info.kind.wireType ++ bs, ?_, fun hlen s => ?_⟩
  · simp only [valueRecord, write_of_fits hfits, hbs]
  · rw [List.length_append] at hlen
    have hform : (slotOf decl (.plain info)).form = .ofKind info.kind false := by
      rw [← hsingle]
      rfl
    refine (Carries.scalar (htakes (by omega))).leads hsound
      (slotsOf_number (hsound.numbers decl hdecl) hf) (hsound.range decl hdecl _ hf) hform ?_
    intro target _ htarget _
    rw [htarget] at hfits
    cases hfits

theorem scalar_merged (hsound : codec.Sound) (hdecl : decl ∈ codec.messages) {info : FieldInfo}
    (hf : .plain info ∈ decl.fields) (hsingle : info.repeated = false) {v : Value}
    (hfits : Fits codec EnumDecl.Canonical info.kind v) (path : String) :
    ∃ bs, codec.singleRecord (.plain info) path (v.view codec.valueBytes) = .ok bs ∧
      (bs.length < UInt64.size → Joins codec decl (.plain info) v bs) := by
  obtain ⟨record, hrecord, hstores⟩ := valueRecord_stores hsound hdecl hf hsingle hfits path
  rw [singleRecord_of_fits hsound hdecl hf hfits, hrecord]
  -- Whether the value is written and whether it is merged are decided alike.
  cases hzero : (Field.plain info).implicitPresence && codec.isZeroOf info.kind v with
  | false =>
    refine ⟨record, rfl, fun hlen s _ _ => ?_⟩
    rw [Value.merge_of_fits hfits, Field.info, hzero, if_neg Bool.false_ne_true]
    exact hstores hlen s
  | true =>
    obtain ⟨zero, hvalue, -⟩ := defaultValue_implicit (hsound.formed decl hdecl _ hf)
      (hsound.indexed decl hdecl _ hf) (Bool.and_eq_true_iff.1 hzero).1
    have hdefault : (codec.defaultOf (.plain info)).isSome = true := by
      rw [defaultOf_eq hvalue]
      rfl
    refine ⟨[], rfl, fun _ s hs hready => ?_⟩
    obtain ⟨w, hw⟩ := Option.isSome_iff_exists.1 (hready.2 hdefault)
    have hsame : s.set (slotOf decl (.plain info)).name w = s := hs.set_self hw
    rw [Value.merge_of_fits hfits, hw, Field.info, hzero, if_pos rfl, Option.getD_some,
      (unrivalled_of_default hsound hdecl hf hdefault s).store, hsame]
    exact .nil

/-- A field of a single message holds one. -/
theorem Holds.exists_message {rules : Discipline} {nested : MessageDecl → Message → Prop}
    {info : FieldInfo} {w : Value} (h : Holds codec rules nested (.plain info) w)
    (hsingle : info.repeated = false) {target : TypeRef} (hkind : info.kind = .message target)
    {inner : MessageDecl} (hinner : codec.message target.fqName = .ok inner) :
    ∃ m, w = .message m ∧ nested inner m := by
  cases h with
  | list hrep =>
    rw [hsingle] at hrep
    cases hrep
  | single _ hv =>
    rw [hkind] at hv
    cases hv with
    | scalar hfits => cases hfits
    | message hinner' hm =>
      rw [hinner] at hinner'
      cases hinner'
      exact ⟨_, rfl, hm⟩

theorem message_merged (hsound : codec.Sound) (hdecl : decl ∈ codec.messages) {info : FieldInfo}
    (hf : .plain info ∈ decl.fields) (hsingle : info.repeated = false) {target : TypeRef}
    (hkind : info.kind = .message target) {inner : MessageDecl}
    (hinner : codec.message target.fqName = .ok inner) {m : Message}
    (hm : ConformsTo codec codec.steady inner m) (hmerges : Merges codec inner m) (path : String) :
    ∃ bs, codec.singleRecord (.plain info) path ((Value.message m).view codec.valueBytes) =
        .ok bs ∧
      (bs.length < UInt64.size → Joins codec decl (.plain info) (.message m) bs) := by
  have hslot := slotsOf_number (hsound.numbers decl hdecl) hf
  have hnumber := hsound.range decl hdecl _ hf
  have hform : (slotOf decl (.plain info)).form = .nested (.message target false) := by
    simp only [slotOf, Form.ofField, Form.ofKind, hkind, hsingle]
  have hexplicit : (Field.plain info).implicitPresence = false := by
    simp [Field.implicitPresence, Field.isMessage, FieldInfo.hasMessageKind, Field.info, hkind,
      hsingle]
  obtain ⟨body, hbody, hmerge⟩ := hmerges
  obtain ⟨body', hbody', hreturn⟩ := hm.steady_returns hsound (mem_of_message hinner)
  rw [hbody] at hbody'
  cases hbody'
  rw [hm.revise_settle_eq_self] at hreturn
  refine ⟨bodyRecord info.number body, ?_, fun hlen s hs hready => ?_⟩
  · rw [singleRecord, hexplicit, if_neg Bool.false_ne_true]
    simp only [valueRecord, Field.info, hkind, write_message hinner, hbody]
    rfl
  · have hshort : body.length < UInt64.size := by
      simp only [bodyRecord, lengthPrefixed, List.length_append] at hlen
      omega
    cases hold : s.get? (Field.plain info).info.name with
    | none =>
      rw [Value.merge_message_none]
      have hopen : codec.openNested (slotOf decl (.plain info)).path (.message target false)
          (s.get? (slotOf decl (.plain info)).name) = .ok (slotsOf inner, codec.fresh inner) :=
        openNested_message hsound hinner (.inr (.inl hold)) _
      exact leads_body hslot hnumber hform hopen hshort (hreturn hshort)
    | some w =>
      -- The message is read into the one that is there.
      obtain ⟨a, rfl, ha⟩ := (hready.1 w hold).exists_message hsingle hkind hinner
      rw [Value.merge_message hkind hinner]
      have hopen : codec.openNested (slotOf decl (.plain info)).path (.message target false)
          (s.get? (slotOf decl (.plain info)).name) = .ok (slotsOf inner, a) := by
        rw [show s.get? (slotOf decl (.plain info)).name = _ from hold]
        simp only [openNested, hinner]
      exact leads_body hslot hnumber hform hopen hshort (hmerge hshort a ha)

theorem list_merged (hsound : codec.Sound) (hdecl : decl ∈ codec.messages) {info : FieldInfo}
    (hf : .plain info ∈ decl.fields) (hrep : info.repeated = true) {items : List Value}
    (h : ∀ v ∈ items, Conforms codec codec.steady (ConformsTo codec codec.steady) info.kind v)
    (path : String) :
    ∃ bs, listRecords info path (items.map fun v => (v.view codec.valueBytes).write) = .ok bs ∧
      (bs.length < UInt64.size → Joins codec decl (.plain info) (.list items) bs) := by
  have hsame := (Holds.list hrep h).revise_eq_self fun _ _ hm => hm.revise_settle_eq_self
  rw [Field.contentKind, Value.revise_list, Value.list.injEq] at hsame
  have hreturns : ∀ v ∈ items, Conforms codec codec.steady (Returns codec) info.kind v :=
    fun v hv => (h v hv).mono (fun _ _ hx => hx)
      fun _ _ _ _ hd hm => hm.steady_returns hsound (mem_of_message hd)
  obtain ⟨bs, hbs, hleads⟩ := list_written hsound hdecl hf hrep hreturns path
  rw [hsame] at hleads
  have hdefault : (codec.defaultOf (.plain info)).isSome = true := by
    rw [defaultOf_list (hsound.formed decl hdecl _ hf) hrep]
    rfl
  refine ⟨bs, hbs, fun hlen s hs hready => ?_⟩
  obtain ⟨w, hw⟩ := Option.isSome_iff_exists.1 (hready.2 hdefault)
  obtain ⟨before, rfl⟩ : ∃ before, w = .list before := by
    cases hready.1 w hw with
    | single hsingle =>
      rw [hrep] at hsingle
      cases hsingle
    | list => exact ⟨_, rfl⟩
  have hclear := unrivalled_of_default hsound hdecl hf hdefault s
  rw [hw, hclear.store]
  exact hleads hlen s before hs hclear hw

theorem map_merged (hsound : codec.Sound) (hdecl : decl ∈ codec.messages) {info : FieldInfo}
    {key value : Field} (hf : .map info key value ∈ decl.fields)
    {entries : List (String × Value)} (hsorted : KeyMap.Sorted entries)
    (hkeys : ∀ p ∈ entries, IsKeyText key.info.kind p.1)
    (h : ∀ p ∈ entries,
      Conforms codec codec.steady (ConformsTo codec codec.steady) value.info.kind p.2)
    (path : String) :
    ∃ bs, codec.entryRecords info.number key.info value.info path
        (entries.map fun p => (p.1, (p.2.view codec.valueBytes).write)) = .ok bs ∧
      (bs.length < UInt64.size → Joins codec decl (.map info key value) (.map entries) bs) := by
  have hholds : Holds codec codec.steady (ConformsTo codec codec.steady) (.map info key value)
      (.map entries) := .map hsorted hkeys h
  have hsame := hholds.revise_eq_self fun _ _ hm => hm.revise_settle_eq_self
  rw [Field.contentKind, Value.revise_map, Value.map.injEq] at hsame
  have hreturns : ∀ p ∈ entries, Conforms codec codec.steady (Returns codec) value.info.kind p.2 :=
    fun p hp => (h p hp).mono (fun _ _ hx => hx)
      fun _ _ _ _ hd hm => hm.steady_returns hsound (mem_of_message hd)
  have hformed := hsound.formed decl hdecl _ hf
  obtain ⟨bs, hbs, hleads⟩ := entries_written hsound hformed (hsound.indexed decl hdecl _ hf)
    hkeys hreturns (slotsOf_number (hsound.numbers decl hdecl) hf) (hsound.range decl hdecl _ hf)
    rfl path
  rw [hsame] at hleads
  have hdefault : (codec.defaultOf (.map info key value)).isSome = true := by
    rw [defaultOf_map hformed]
    rfl
  refine ⟨bs, hbs, fun hlen s hs hready => ?_⟩
  obtain ⟨w, hw⟩ := Option.isSome_iff_exists.1 (hready.2 hdefault)
  obtain ⟨before, rfl⟩ : ∃ before, w = .map before := by
    cases hready.1 w hw with | map => exact ⟨_, rfl⟩
  have hclear := unrivalled_of_default hsound hdecl hf hdefault s
  rw [hw, hclear.store]
  exact hleads hlen s before hs hclear hw

theorem Holds.merged (hsound : codec.Sound) (hdecl : decl ∈ codec.messages) {field : Field}
    (hf : field ∈ decl.fields) {v : Value}
    (h : Holds codec codec.steady
      (fun d m => ConformsTo codec codec.steady d m ∧ Merges codec d m) field v)
    (path : String) :
    ∃ bs, codec.fieldRecords field path (v.view codec.valueBytes) = .ok bs ∧
      (bs.length < UInt64.size → Joins codec decl field v bs) := by
  cases h with
  | @single info v hsingle hv =>
    rw [fieldRecords, if_neg (by rw [hsingle]; decide)]
    generalize hkind : info.kind = kind at hv
    cases hv with
    | scalar hfits => exact scalar_merged hsound hdecl hf hsingle (hkind ▸ hfits) path
    | message hinner hm =>
      exact message_merged hsound hdecl hf hsingle hkind hinner hm.1 hm.2 path
  | @list info items hrep hvs =>
    rw [fieldRecords, if_pos hrep]
    simp only [Value.view, Value.writers_eq_map]
    exact list_merged hsound hdecl hf hrep
      (fun v hv => (hvs v hv).mono (fun _ _ hx => hx) fun _ _ _ _ _ hm => hm.1) path
  | @map info key value entries hsorted hkeys hvs =>
    simp only [fieldRecords, Value.view, Value.entryWriters_eq_map]
    exact map_merged hsound hdecl hf hsorted hkeys
      (fun p hp => (hvs p hp).mono (fun _ _ hx => hx) fun _ _ _ _ _ hm => hm.1) path

/-! ## Field by field -/

section

variable {other : Message}

/-- A message with one field of another merged into it. -/
def mergeField (codec : Codec) (decl : MessageDecl) (other s : Message) (field : Field) : Message :=
  match other.get? field.info.name with
  | none => s
  | some v => (slotOf decl field).store s (some (v.merge codec field (s.get? field.info.name)))

theorem sorted_mergeField {s : Message} (hs : s.Sorted) (field : Field) :
    (mergeField codec decl other s field).Sorted := by
  rw [mergeField]
  cases other.get? field.info.name with
  | none => exact hs
  | some v => exact Slot.sorted_store _ hs _

theorem typeName_mergeField (s : Message) (field : Field) :
    (mergeField codec decl other s field).typeName = s.typeName := by
  rw [mergeField]
  cases other.get? field.info.name with
  | none => rfl
  | some v => exact Slot.typeName_store _ _ _

/-- Two fields that are both set are not members of one oneof. -/
theorem notMem_rivals (hnames : decl.DistinctProperties) (hone : OneOfEach decl other)
    {field g : Field} (hf : field ∈ decl.fields) (hg : g ∈ decl.fields)
    (hfset : (other.get? field.info.name).isSome = true)
    (hgset : (other.get? g.info.name).isSome = true) :
    g.info.name ∉ (slotOf decl field).rivals := by
  intro hmem
  obtain ⟨hmember, honeof, hnumber⟩ := (mem_rivals hnames hg).1 hmem
  exact hnumber (by rw [hone field hf g hg hmember honeof.symm hfset hgset])

/-- A field leaves alone the properties of all other fields that are set. -/
theorem get?_mergeField_of_ne (hnames : decl.DistinctProperties) (hone : OneOfEach decl other)
    {field g : Field} (hf : field ∈ decl.fields) (hg : g ∈ decl.fields)
    (hne : field.info.name ≠ g.info.name) (hgset : (other.get? g.info.name).isSome = true)
    (s : Message) :
    (mergeField codec decl other s field).get? g.info.name = s.get? g.info.name := by
  rw [mergeField]
  cases hv : other.get? field.info.name with
  | none => rfl
  | some v =>
    have hrival := notMem_rivals hnames hone hf hg (by rw [hv]; rfl) hgset
    exact (Slot.get?_store _ _ _ _).trans ((if_neg hrival).trans (if_neg hne))

theorem get?_foldl_mergeField_of_set (hnames : decl.DistinctProperties)
    (hone : OneOfEach decl other) {g : Field} (hg : g ∈ decl.fields)
    (hgset : (other.get? g.info.name).isSome = true) {fields : List Field}
    (hsub : ∀ field ∈ fields, field ∈ decl.fields)
    (hother : ∀ field ∈ fields, field.info.name ≠ g.info.name) (s : Message) :
    (fields.foldl (mergeField codec decl other) s).get? g.info.name = s.get? g.info.name := by
  induction fields generalizing s with
  | nil => rfl
  | cons field rest ih =>
    rw [List.forall_mem_cons] at hsub hother
    rw [List.foldl_cons, ih hsub.2 hother.2]
    exact get?_mergeField_of_ne hnames hone hsub.1 hg hother.1 hgset s

/-- What a message writes for a field merges the field. -/
theorem presentRecords_merged (hsound : codec.Sound) (hdecl : decl ∈ codec.messages)
    {field : Field} (hf : field ∈ decl.fields)
    (hholds : ∀ v, other.get? field.info.name = some v → Holds codec codec.steady
      (fun d m => ConformsTo codec codec.steady d m ∧ Merges codec d m) field v) :
    ∃ bs, codec.presentRecords decl (Value.fieldViews codec.valueBytes other.fields) field =
        .ok bs ∧
      (bs.length < UInt64.size → ∀ s : Message, s.Sorted →
        ((other.get? field.info.name).isSome = true →
          Ready codec field (s.get? field.info.name)) →
        Leads codec (slotsOf decl) bs s (mergeField codec decl other s field)) := by
  rw [presentRecords_eq]
  simp only [mergeField]
  cases hv : other.get? field.info.name with
  | none => exact ⟨[], rfl, fun _ s _ _ => .nil⟩
  | some v =>
    obtain ⟨bs, hbs, hjoins⟩ := (hholds v hv).merged hsound hdecl hf (fieldPath decl field.info)
    exact ⟨bs, hbs, fun hlen s hs hready => hjoins hlen s hs (hready rfl)⟩

/-- The records of some fields merge them one after the other. -/
theorem recordsOf_merged (hsound : codec.Sound) (hdecl : decl ∈ codec.messages)
    (hone : OneOfEach decl other)
    (hholds : ∀ field ∈ decl.fields, ∀ v, other.get? field.info.name = some v →
      Holds codec codec.steady
        (fun d m => ConformsTo codec codec.steady d m ∧ Merges codec d m) field v)
    {fields : List Field} (hsub : ∀ field ∈ fields, field ∈ decl.fields)
    (hnames : (fields.map (·.info.name)).Nodup) :
    ∃ bs, codec.recordsOf decl (Value.fieldViews codec.valueBytes other.fields) fields = .ok bs ∧
      (bs.length < UInt64.size → ∀ s : Message, s.Sorted →
        (∀ field ∈ fields, (other.get? field.info.name).isSome = true →
          Ready codec field (s.get? field.info.name)) →
        Leads codec (slotsOf decl) bs s (fields.foldl (mergeField codec decl other) s)) := by
  induction fields with
  | nil => exact ⟨[], rfl, fun _ s _ _ => .nil⟩
  | cons field rest ih =>
    rw [List.forall_mem_cons] at hsub
    rw [List.map_cons, List.nodup_cons] at hnames
    obtain ⟨more, hmore, hleads⟩ := ih hsub.2 hnames.2
    obtain ⟨first, hfirst, hmerge⟩ :=
      presentRecords_merged hsound hdecl hsub.1 (hholds field hsub.1)
    refine ⟨first ++ more, ?_, fun hlen s hs hready => ?_⟩
    · simp only [recordsOf, hfirst, hmore]
    · rw [List.length_append] at hlen
      rw [List.forall_mem_cons] at hready
      refine (hmerge (by omega) s hs hready.1).append ?_
      refine hleads (by omega) _ (sorted_mergeField hs field) fun g hg hgset => ?_
      have hne : field.info.name ≠ g.info.name :=
        fun heq => hnames.1 (heq ▸ List.mem_map_of_mem hg)
      rw [get?_mergeField_of_ne (hsound.properties decl hdecl) hone hsub.1 (hsub.2 g hg) hne hgset]
      exact hready.2 g hg hgset

/-- What is not set stays as it is, unless another member of its oneof is set. -/
theorem get?_foldl_mergeField_of_unset {name : String} (hunset : other.get? name = none)
    (fields : List Field) (s : Message) :
    (fields.foldl (mergeField codec decl other) s).get? name =
      if fields.any fun field => (other.get? field.info.name).isSome &&
        decide (name ∈ (slotOf decl field).rivals) then none else s.get? name := by
  induction fields generalizing s with
  | nil => rfl
  | cons field rest ih =>
    rw [List.foldl_cons, ih, List.any_cons, mergeField]
    cases hv : other.get? field.info.name with
    | none => rfl
    | some v =>
      have hne : field.info.name ≠ name := by
        intro heq
        rw [heq, hunset] at hv
        cases hv
      have hstore := Slot.get?_store (slotOf decl field) s
        (v.merge codec field (s.get? field.info.name)) name
      simp only [hstore, Option.isSome_some, Bool.true_and]
      by_cases hrival : name ∈ (slotOf decl field).rivals
      · simp only [hrival, if_true, decide_true, Bool.true_or, ite_self]
      · simp only [hrival, if_false, decide_false, Bool.false_or, show (slotOf decl field).name =
          field.info.name from rfl, hne]

theorem get?_foldl_mergeField_of_mem (hnames : decl.DistinctProperties)
    (hone : OneOfEach decl other) {g : Field} (hg : g ∈ decl.fields) {v : Value}
    (hv : other.get? g.info.name = some v) (s : Message) :
    (decl.fields.foldl (mergeField codec decl other) s).get? g.info.name =
      some (v.merge codec g (s.get? g.info.name)) := by
  have hgset : (other.get? g.info.name).isSome = true := by rw [hv]; rfl
  -- Neither the fields before it nor those after it touch the property.
  obtain ⟨before, after, hfields⟩ := List.append_of_mem hg
  have hsub : ∀ field ∈ before ++ g :: after, field ∈ decl.fields := fun _ h => hfields ▸ h
  have hnodup := hnames
  rw [MessageDecl.DistinctProperties, hfields, List.map_append, List.map_cons,
    List.nodup_append] at hnodup
  obtain ⟨-, hafter, hbefore⟩ := hnodup
  rw [hfields, List.foldl_append, List.foldl_cons,
    get?_foldl_mergeField_of_set hnames hone hg hgset
      (fun field hf => hsub field (List.mem_append_right _ (List.mem_cons_of_mem _ hf)))
      (fun field hf heq => (List.nodup_cons.1 hafter).1 (heq ▸ List.mem_map_of_mem hf)),
    mergeField, hv]
  have hrival : g.info.name ∉ (slotOf decl g).rivals := notMem_rivals hnames hone hg hg hgset hgset
  refine (Slot.get?_store _ _ _ _).trans ((if_neg hrival).trans ((if_pos rfl).trans ?_))
  rw [get?_foldl_mergeField_of_set hnames hone hg hgset
    (fun field hf => hsub field (List.mem_append_left _ hf))
    (fun field hf => hbefore _ (List.mem_map_of_mem hf) _ List.mem_cons_self)]

/-- To be a member of the same oneof goes both ways. -/
theorem any_rivals_iff (hnames : decl.DistinctProperties) {g : Field} (hg : g ∈ decl.fields)
    (set : Field → Bool) :
    (decl.fields.any fun field => set field && decide (g.info.name ∈ (slotOf decl field).rivals)) =
      true ↔ (decl.siblings g).any set = true := by
  simp only [List.any_eq_true, Bool.and_eq_true, decide_eq_true_eq, mem_rivals hnames hg,
    MessageDecl.mem_siblings]
  constructor
  · rintro ⟨field, hf, hset, hmember, honeof, hnumber⟩
    exact ⟨field, ⟨hf, honeof ▸ hmember, honeof.symm, hnumber.symm⟩, hset⟩
  · rintro ⟨field, ⟨hf, hmember, honeof, hnumber⟩, hset⟩
    exact ⟨field, hf, hset, honeof ▸ hmember, honeof.symm, hnumber.symm⟩

/-- Merging field by field merges the message. -/
theorem foldl_mergeField (hnames : decl.DistinctProperties) (hone : OneOfEach decl other)
    (hdeclared : ∀ name v, other.get? name = some v → ∃ field ∈ decl.fields, field.info.name = name)
    {s : Message} (hs : s.Sorted) :
    decl.fields.foldl (mergeField codec decl other) s = s.merge codec decl other := by
  have hsorted : ∀ fields : List Field, (fields.foldl (mergeField codec decl other) s).Sorted :=
    fun fields => List.foldlRecOn fields _ hs fun _ h field _ => sorted_mergeField h field
  have htype : ∀ fields : List Field,
      (fields.foldl (mergeField codec decl other) s).typeName = s.typeName :=
    fun fields => List.foldlRecOn (motive := fun m : Message => m.typeName = s.typeName)
      fields _ rfl fun _ h field _ => (typeName_mergeField _ field).trans h
  rw [Message.merge_eq]
  refine Message.ext_get? (hsorted _) (hs.putAll _ _) ?_ fun name => ?_
  · rw [htype, Message.typeName_putAll]
  by_cases hname : ∃ g ∈ decl.fields, g.info.name = name
  · obtain ⟨g, hg, rfl⟩ := hname
    rw [Message.get?_putAll_of_mem hnames hg]
    cases hv : other.get? g.info.name with
    | some v => exact get?_foldl_mergeField_of_mem hnames hone hg hv s
    | none =>
      rw [get?_foldl_mergeField_of_unset hv]
      simp only [any_rivals_iff hnames hg fun field => (other.get? field.info.name).isSome]
  · have hne : ∀ field ∈ decl.fields, field.info.name ≠ name :=
      fun field hf heq => hname ⟨field, hf, heq⟩
    have hunset : other.get? name = none := by
      cases hv : other.get? name with
      | none => rfl
      | some v => exact absurd (hdeclared name v hv) hname
    rw [get?_foldl_mergeField_of_unset hunset, Message.get?_putAll_of_forall_ne hne, if_neg]
    rw [List.any_eq_true]
    rintro ⟨field, -, hset⟩
    rw [Bool.and_eq_true, decide_eq_true_eq] at hset
    obtain ⟨g, hg, heq⟩ := List.mem_map.1 hset.2
    exact hne g (MessageDecl.mem_siblings.1 hg).1 heq

end

/-- A message of a type merges. -/
theorem ConformsTo.merges (hsound : codec.Sound) {m : Message}
    (h : ConformsTo codec codec.steady decl m) : decl ∈ codec.messages → Merges codec decl m := by
  refine ConformsTo.induct (fun decl m hm ih hdecl => ?_) h
  have hnames := hsound.properties decl hdecl
  have hone : OneOfEach decl m := hm.level.1
  have hholds : ∀ field ∈ decl.fields, ∀ v, m.get? field.info.name = some v →
      Holds codec codec.steady
        (fun d x => ConformsTo codec codec.steady d x ∧ Merges codec d x) field v := by
    intro field hf v hv
    exact (ih field hf v hv).imp fun target d x _ hd hx => ⟨hx.1, hx.2 (mem_of_message hd)⟩
  obtain ⟨body, hbody, hleads⟩ :=
    recordsOf_merged hsound hdecl hone hholds (fun _ hf => hf) hnames
  refine ⟨body, hbody, fun hlen s hs => ?_⟩
  rw [← foldl_mergeField hnames hone (fun _ _ hv => hm.declared hv) hs.sorted]
  exact hleads hlen s hs.sorted fun field hf _ => hs.ready hf

/-- The bytes of two messages of a type one after the other are read as the second merged into
the first. Both are as they would be read: fields with defaults are there, enums and keys have
the forms in which they are read, of every oneof there is one member at most, and no field that
cannot be absent holds a negative zero. As in `decode_encode`, lengths have 64 bits. -/
theorem decode_encode_append (hresolved : codec.Resolved) (hvalid : codec.Valid)
    {typeName : String} (htype : codec.message typeName = .ok decl)
    (hown : codec.message decl.fqName = .ok decl) {m other : Message}
    (hm : ConformsTo codec codec.steady decl m)
    (hother : ConformsTo codec codec.steady decl other) :
    ∃ bytes bytes', codec.encode m = .ok bytes ∧ codec.encode other = .ok bytes' ∧
      (bytes.length < UInt64.size → bytes'.length < UInt64.size →
        codec.decode typeName (bytes ++ bytes') = .ok (m.merge codec decl other)) := by
  have hsound := hresolved.sound hvalid
  have hdecl := mem_of_message htype
  obtain ⟨bytes, hbytes, hreturn⟩ := hm.steady_returns hsound hdecl
  obtain ⟨bytes', hbytes', hmerge⟩ := hother.merges hsound hdecl
  rw [hm.revise_settle_eq_self] at hreturn
  refine ⟨bytes, bytes', ?_, ?_, fun hlen hlen' => ?_⟩
  · simp only [encode, hm.typeName, hown, hbytes]
  · simp only [encode, hother.typeName, hown, hbytes']
  · simp only [decode, htype, newMessage_eq hsound hdecl]
    exact (hreturn hlen).append (hmerge hlen' m hm) 0

/-- The file that declares trails: a length, the posts along the way and the trail that goes
on from there. -/
def trailFile : FileDescriptor :=
  { name := some "grove.proto"
    package := "grove"
    dialect := "proto3"
    messages := [
      { name := "Trail"
        fields := [
          { name := "length", number := 1, type := .sint32 },
          { name := "next", number := 2, type := .message, typeName := ".grove.Trail" },
          { name := "posts", number := 3, label := .repeated, type := .string }] }] }

/-- Trails. -/
def trailDecl : MessageDecl :=
  { name := "Trail", fqName := "grove.Trail", shortName := "Trail", isMapEntry := false
    fields := [
      .plain (groveField "length" "length" 1 .sint32 false none),
      .plain (groveField "next" "next" 2 (.message (groveRef "Trail" .message)) false none),
      .plain (groveField "posts" "posts" 3 .string true none)]
    comment := none }

/-- The codec of trails. -/
def trails : Codec :=
  { messages := [trailDecl], enums := [], emitDefaults := false, protoNames := false }

/-- A trail. -/
def trail (length : Int32) (posts : List String) (next : Option Message) : Message :=
  ⟨"grove.Trail", ("length", .int32 length) :: (next.map fun m => ("next", .message m)).toList ++
    [("posts", .list (posts.map .string))]⟩

theorem decode_encode_append_trail :
    trails.Resolved ∧ trails.Valid ∧
      ConformsTo trails trails.steady trailDecl (trail 4 ["gate"] (some (trail 7 ["oak"] none))) ∧
      ConformsTo trails trails.steady trailDecl
        (trail 0 ["stile"] (some (trail 0 ["fir"] (some (trail (-1) [] none))))) ∧
      ∃ bytes bytes',
        trails.encode (trail 4 ["gate"] (some (trail 7 ["oak"] none))) = .ok bytes ∧
        trails.encode (trail 0 ["stile"] (some (trail 0 ["fir"] (some (trail (-1) [] none))))) =
          .ok bytes' ∧
        (bytes.length < UInt64.size → bytes'.length < UInt64.size →
          trails.decode "grove.Trail" (bytes ++ bytes') =
            .ok (trail 4 ["gate", "stile"]
              (some (trail 7 ["oak", "fir"] (some (trail (-1) [] none)))))) := by
  have hresolved : trails.Resolved :=
    resolved_of_build [trailFile] ["grove.proto"] .javaScript {} (by cbv)
  have hvalid : trails.Valid := by decide +kernel
  have hm := conformsTo_of_within 2 (show ConformsWithin trails
    (canonical fun decl m => OneOfEach decl m ∧ NoNegativeZero decl m ∧ Complete trails decl m) 2
    trailDecl (trail 4 ["gate"] (some (trail 7 ["oak"] none))) by decide +kernel)
  have hother := conformsTo_of_within 3 (show ConformsWithin trails
    (canonical fun decl m => OneOfEach decl m ∧ NoNegativeZero decl m ∧ Complete trails decl m) 3
    trailDecl (trail 0 ["stile"] (some (trail 0 ["fir"] (some (trail (-1) [] none)))))
    by decide +kernel)
  have hmerge : (trail 4 ["gate"] (some (trail 7 ["oak"] none))).merge trails trailDecl
      (trail 0 ["stile"] (some (trail 0 ["fir"] (some (trail (-1) [] none))))) =
      trail 4 ["gate", "stile"] (some (trail 7 ["oak", "fir"] (some (trail (-1) [] none)))) := by
    cbv
  refine ⟨hresolved, hvalid, hm, hother, ?_⟩
  rw [← hmerge]
  exact decode_encode_append hresolved hvalid (by decide +kernel) (by decide +kernel) hm hother

end Codec
end ProtoStub
