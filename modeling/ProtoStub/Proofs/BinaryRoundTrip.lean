import ProtoStub.Codec.Encode
import ProtoStub.Proofs.Decision
import ProtoStub.Proofs.Records

/-!
# Messages survive writing and reading

A message that conforms to its type is written without a fault, and reading the bytes gives
the message with its absent fields filled by their defaults, at every depth.

The proof follows the message from the inside out. A nested message *returns* (`Returns`) if
its bytes lead from the new message of its type to the message itself, settled; from that each
value is carried by its bytes, each field's records put its property, and the fields one after
the other put them all. Fields that were read before do not get in the way: of a oneof only one
member is there, so nothing that a record unsets was set.
-/

namespace ProtoStub.Codec

open Wire

/-! ## Values -/

variable {codec : Codec}

theorem write_of_fits {allowed : EnumDecl → EnumValue → Prop} {kind : FieldKind} {v : Value}
    (h : Fits codec allowed kind v) (path : String) :
    (v.view codec.valueBytes).write kind path = codec.scalarBytes v kind path := by
  cases h <;> rfl

theorem write_message {target : TypeRef} {decl : MessageDecl}
    (h : codec.message target.fqName = .ok decl) (m : Message) (path : String) :
    ((Value.message m).view codec.valueBytes).write (.message target) path =
      lengthPrefixed <$> codec.encodeAs decl m := by
  obtain ⟨typeName, fields⟩ := m
  simp only [Value.view, valueBytes, h, encodeAs]

/-- A message is written, and what is written leads to the settled message. -/
def Returns (codec : Codec) (decl : MessageDecl) (m : Message) : Prop :=
  ∃ body, codec.encodeAs decl m = .ok body ∧
    (body.length < UInt64.size →
      Leads codec (slotsOf decl) body (codec.fresh decl) (m.revise codec codec.settle decl))

variable {level : MessageDecl → Message → Prop}

theorem Conforms.written (hsound : codec.Sound) {kind : FieldKind} {v : Value}
    (h : Conforms codec (canonical level) (Returns codec) kind v) (path : String) :
    ∃ bs, (v.view codec.valueBytes).write kind path = .ok bs ∧
      (bs.length < UInt64.size → Carries codec kind (v.revise codec codec.settle kind) bs) := by
  cases h with
  | scalar hfits =>
    obtain ⟨bs, hbs, htakes⟩ := scalarBytes_takes hsound.enums hfits path
    refine ⟨bs, (write_of_fits hfits path).trans hbs, fun hlen => ?_⟩
    rw [Value.revise_of_fits hfits]
    exact .scalar (htakes hlen)
  | message hdecl hm =>
    obtain ⟨body, hbody, hleads⟩ := hm
    refine ⟨lengthPrefixed body, ?_, fun hlen => ?_⟩
    · rw [write_message hdecl, hbody]
      rfl
    · have hshort : body.length < UInt64.size := by
        rw [lengthPrefixed, List.length_append] at hlen
        omega
      rw [Value.revise_message hdecl]
      exact .message hdecl hshort (hleads hshort)

/-! ## Lists -/

/-- Values that are taken from the bytes that are written of them are taken one after the other. -/
theorem packedBytes_takes {kind : FieldKind} {path : String} {items : List Value}
    {write : Value → Writer (List UInt8)}
    (h : ∀ v ∈ items, ∃ bs, write v kind path = .ok bs ∧
      (bs.length < UInt64.size → ∀ path', Takes (codec.readScalar kind path') bs v)) :
    ∃ body, packedBytes kind path (items.map write) = .ok body ∧
      (body.length < UInt64.size → ∀ path' offset,
        codec.readPacked kind path' ⟨offset, body⟩ = .ok items) := by
  induction items with
  | nil =>
    refine ⟨[], rfl, fun _ path' offset => ?_⟩
    rw [readPacked]
    rfl
  | cons v rest ih =>
    rw [List.forall_mem_cons] at h
    obtain ⟨first, hfirst, htakes⟩ := h.1
    obtain ⟨more, hmore, hread⟩ := ih h.2
    refine ⟨first ++ more, ?_, fun hlen path' offset => ?_⟩
    · simp only [List.map_cons, packedBytes, hfirst, hmore]
    · rw [List.length_append] at hlen
      exact readPacked_cons (htakes (by omega) path') (hread (by omega) path') offset

theorem packed_written (hsound : codec.Sound) {kind : FieldKind} {items : List Value}
    (h : ∀ v ∈ items, Fits codec EnumDecl.Canonical kind v) (path : String) :
    ∃ body, packedBytes kind path (items.map fun v => (v.view codec.valueBytes).write) =
        .ok body ∧
      (body.length < UInt64.size → ∀ path' offset,
        codec.readPacked kind path' ⟨offset, body⟩ = .ok items) := by
  refine packedBytes_takes fun v hv => ?_
  rw [write_of_fits (h v hv)]
  exact scalarBytes_takes hsound.enums (h v hv) path

theorem items_written (hsound : codec.Sound) {info : FieldInfo} {items : List Value}
    (h : ∀ v ∈ items, Conforms codec (canonical level) (Returns codec) info.kind v)
    {slots : Slots} {slot : Slot} (hslot : slots info.number = some slot)
    (hnumber : IsFieldNumber info.number) (hform : slot.form = .ofKind info.kind true)
    (path : String) :
    ∃ bs, itemRecords info path (items.map fun v => (v.view codec.valueBytes).write) = .ok bs ∧
      (bs.length < UInt64.size → ∀ s done, s.Sorted → slot.Unrivalled s →
        s.get? slot.name = some (.list done) →
        Leads codec slots bs s (s.set slot.name
          (.list (done ++ items.map (·.revise codec codec.settle info.kind))))) := by
  induction items with
  | nil =>
    refine ⟨[], rfl, fun _ s done hs _ hold => ?_⟩
    rw [List.map_nil, List.append_nil, hs.set_self hold]
    exact .nil
  | cons v rest ih =>
    rw [List.forall_mem_cons] at h
    obtain ⟨first, hfirst, hcarries⟩ := h.1.written hsound path
    obtain ⟨more, hmore, hleads⟩ := ih h.2
    refine ⟨encodeTag info.number info.kind.wireType ++ first ++ more, ?_,
      fun hlen s done hs hclear hold => ?_⟩
    · simp only [List.map_cons, itemRecords, valueRecord, hfirst, hmore]
    · rw [List.length_append, List.length_append] at hlen
      rw [List.map_cons]
      generalize v.revise codec codec.settle info.kind = v' at hcarries ⊢
      have hrecord : Leads codec slots (encodeTag info.number info.kind.wireType ++ first) s
          (s.set slot.name (.list (done ++ [v']))) := by
        have := (hcarries (by omega)).leads hsound (m := s) hslot hnumber hform
          fun _ _ _ _ => .inl rfl
        rw [hclear.store, hold] at this
        exact this
      have hrest := hleads (by omega) (s.set slot.name (.list (done ++ [v']))) (done ++ [v'])
        (hs.set _ _) (hclear.set _) (by rw [Message.get?_set, if_pos rfl])
      rw [hs.set_set, List.append_assoc, List.singleton_append] at hrest
      exact hrecord.append hrest

/-! ## Maps -/

/-- The text of a key stands for a key that goes by it. -/
theorem exists_key_of_isKeyText (codec : Codec) (allowed : EnumDecl → EnumValue → Prop)
    {kind : FieldKind} {text : String} (h : IsKeyText kind text) :
    ∃ k, keyOfText? kind text = some k ∧ textOfKey k = text ∧ Fits codec allowed kind k := by
  obtain ⟨k, hk, htext⟩ := Option.map_eq_some_iff.1 h
  exact ⟨k, hk, htext, fits_of_keyOfText? codec allowed hk⟩

theorem entries_written (hsound : codec.Sound) {info : FieldInfo} {key value : Field}
    (hf : (Field.map info key value).Formed) (hindexed : codec.Indexed value.info.kind)
    {entries : List (String × Value)} (hkeys : ∀ p ∈ entries, IsKeyText key.info.kind p.1)
    (h : ∀ p ∈ entries, Conforms codec (canonical level) (Returns codec) value.info.kind p.2)
    {slots : Slots} {slot : Slot} (hslot : slots info.number = some slot)
    (hnumber : IsFieldNumber info.number)
    (hform : slot.form = .nested (.entry key.info value.info)) (path : String) :
    ∃ bs, codec.entryRecords info.number key.info value.info path
          (entries.map fun p => (p.1, (p.2.view codec.valueBytes).write)) = .ok bs ∧
      (bs.length < UInt64.size → ∀ s done, s.Sorted → slot.Unrivalled s →
        s.get? slot.name = some (.map done) →
        Leads codec slots bs s (s.set slot.name (.map
          ((entries.map fun p => (p.1, p.2.revise codec codec.settle value.info.kind)).foldl
            (fun m p => KeyMap.insert m p.1 p.2) done)))) := by
  induction entries with
  | nil =>
    refine ⟨[], rfl, fun _ s done hs _ hold => ?_⟩
    rw [List.map_nil, List.foldl_nil, hs.set_self hold]
    exact .nil
  | cons p rest ih =>
    obtain ⟨text, v⟩ := p
    rw [List.forall_mem_cons] at hkeys h
    obtain ⟨k, hk, htext, hfits⟩ :=
      exists_key_of_isKeyText codec EnumDecl.Canonical hkeys.1
    obtain ⟨kb, hkb, hktakes⟩ := scalarBytes_takes hsound.enums hfits path
    obtain ⟨vb, hvb, hcarries⟩ := h.1.written hsound path
    obtain ⟨more, hmore, hleads⟩ := ih hkeys.2 h.2
    have hones : key.info.number = 1 ∧ value.info.number = 2 := by
      cases hf with | map _ _ _ _ _ hone htwo _ _ => exact ⟨hone, htwo⟩
    refine ⟨bodyRecord info.number (encodeTag 1 key.info.kind.wireType ++ kb ++
      (encodeTag 2 value.info.kind.wireType ++ vb)) ++ more, ?_,
      fun hlen s done hs hclear hold => ?_⟩
    · simp only [List.map_cons, entryRecords, entryBytes, hk, valueRecord, hkb, hvb, hmore,
        hones.1, hones.2]
    · have hshort : (encodeTag 1 key.info.kind.wireType ++ kb ++
          (encodeTag 2 value.info.kind.wireType ++ vb)).length < UInt64.size := by
        simp only [bodyRecord, lengthPrefixed, List.length_append] at hlen ⊢
        omega
      have hparts := hshort
      simp only [List.length_append] at hlen hparts
      simp only [List.map_cons, List.foldl_cons]
      generalize v.revise codec codec.settle value.info.kind = v' at hcarries ⊢
      have hrecord : Leads codec slots (bodyRecord info.number
          (encodeTag 1 key.info.kind.wireType ++ kb ++
            (encodeTag 2 value.info.kind.wireType ++ vb))) s
          (s.set slot.name (.map (KeyMap.insert done text v'))) := by
        have := leads_entry (m := s) hsound hslot hnumber hf hindexed hform
          (.scalar (hktakes (by omega))) (hcarries (by omega)) hshort
        rw [hclear.store, hold, htext] at this
        exact this
      have hrest := hleads (by omega) (s.set slot.name (.map (KeyMap.insert done text v')))
        (KeyMap.insert done text v') (hs.set _ _) (hclear.set _)
        (by rw [Message.get?_set, if_pos rfl])
      rw [hs.set_set] at hrest
      exact hrecord.append hrest

/-! ## Fields -/

/-- Bytes that put the property of a field into a message that has its default. -/
def Puts (codec : Codec) (decl : MessageDecl) (field : Field) (value : Option Value)
    (bs : List UInt8) : Prop :=
  ∀ s : Message, s.Sorted → (slotOf decl field).Unrivalled s →
    s.get? field.info.name = codec.defaultOf field →
    Leads codec (slotsOf decl) bs s (s.put field.info.name value)

theorem single_written (hsound : codec.Sound) {decl : MessageDecl} (hdecl : decl ∈ codec.messages)
    {info : FieldInfo} (hf : .plain info ∈ decl.fields) (hsingle : info.repeated = false)
    {v : Value} (h : Conforms codec (canonical level) (Returns codec) info.kind v)
    (path : String) :
    ∃ bs, codec.singleRecord (.plain info) path (v.view codec.valueBytes) = .ok bs ∧
      (bs.length < UInt64.size → Puts codec decl (.plain info)
        (codec.settle (.plain info) (some (v.revise codec codec.settle info.kind))) bs) := by
  have hformed := hsound.formed decl hdecl _ hf
  have hslot := slotsOf_number (hsound.numbers decl hdecl) hf
  obtain ⟨bs, hbs, hcarries⟩ := h.written hsound path
  -- The record of the value puts it, whether or not the field can be absent.
  have hputs : (encodeTag info.number info.kind.wireType ++ bs).length < UInt64.size →
      Puts codec decl (.plain info) (some (v.revise codec codec.settle info.kind))
        (encodeTag info.number info.kind.wireType ++ bs) := by
    intro hlen s hs hclear hold
    rw [List.length_append] at hlen
    have hform : (slotOf decl (.plain info)).form = .ofKind info.kind false := by
      rw [← hsingle]
      rfl
    have hrecord := (hcarries (by omega)).leads hsound (m := s) hslot
      (hsound.range decl hdecl _ hf) hform ?_
    · rw [hclear.store] at hrecord
      exact hrecord
    · intro target _ htarget _
      refine .inr (.inl (hold.trans (defaultOf_explicit hformed hsingle ?_)))
      simp [Field.implicitPresence, Field.info, Field.isMessage, FieldInfo.hasMessageKind,
        hsingle, htarget]
  have hrecord : valueRecord (v.view codec.valueBytes).write info path =
      .ok (encodeTag info.number info.kind.wireType ++ bs) := by
    simp only [valueRecord, hbs]
  generalize encodeTag info.number info.kind.wireType ++ bs = record at hputs hrecord
  cases himplicit : (Field.plain info).implicitPresence with
  | false =>
    refine ⟨record, ?_, fun hlen => ?_⟩
    · rw [singleRecord, himplicit, if_neg Bool.false_ne_true]
      exact hrecord
    · rw [settle_explicit codec himplicit]
      exact hputs hlen
  | true =>
    obtain ⟨-, -, hinitial⟩ := initial_implicit hformed himplicit
    have hfits : Fits codec EnumDecl.Canonical info.kind v :=
      ((Holds.single hsingle h).fits_of_implicit himplicit).1
    obtain ⟨zero, hzero, hdefault, hplain⟩ :=
      isZero_spec (hsound.enums.namesApart _) hinitial hfits path
    rw [settle_implicit codec himplicit, Value.revise_of_fits hfits]
    rw [Value.revise_of_fits hfits] at hputs
    cases zero with
    | true =>
      refine ⟨[], ?_, fun _ s hs _ hold => ?_⟩
      · simp only [singleRecord, himplicit, if_true, Value.view_value, Field.info, hzero]
      · -- A zero is not written: the default is there already.
        rw [hs.put_self (hold.trans (defaultOf_eq (hdefault rfl)))]
        exact .nil
    | false =>
      refine ⟨record, ?_, fun hlen => ?_⟩
      · simp only [singleRecord, himplicit, if_true, Value.view_value, Field.info, hzero]
        exact hrecord
      · rw [hplain rfl]
        exact hputs hlen

theorem list_written (hsound : codec.Sound) {decl : MessageDecl} (hdecl : decl ∈ codec.messages)
    {info : FieldInfo} (hf : .plain info ∈ decl.fields) (hrep : info.repeated = true)
    {items : List Value}
    (h : ∀ v ∈ items, Conforms codec (canonical level) (Returns codec) info.kind v)
    (path : String) :
    ∃ bs, listRecords info path (items.map fun v => (v.view codec.valueBytes).write) = .ok bs ∧
      (bs.length < UInt64.size → ∀ s done, s.Sorted → (slotOf decl (.plain info)).Unrivalled s →
        s.get? info.name = some (.list done) →
        Leads codec (slotsOf decl) bs s (s.set info.name
          (.list (done ++ items.map (·.revise codec codec.settle info.kind))))) := by
  have hslot := slotsOf_number (hsound.numbers decl hdecl) hf
  have hnumber := hsound.range decl hdecl _ hf
  have hform : (slotOf decl (.plain info)).form = .ofKind info.kind true := by
    rw [← hrep]
    rfl
  cases items with
  | nil =>
    refine ⟨[], rfl, fun _ s done hs _ hold => ?_⟩
    rw [List.map_nil, List.append_nil, hs.set_self hold]
    exact .nil
  | cons v rest =>
    cases hpack : info.kind.isPackable with
    | false =>
      obtain ⟨bs, hbs, hleads⟩ := items_written hsound h hslot hnumber hform path
      refine ⟨bs, ?_, hleads⟩
      rw [listRecords, if_neg (by simp), if_neg (by rw [hpack]; decide)]
      exact hbs
    | true =>
      have hne : ∀ target, info.kind ≠ .message target := by
        intro target htarget
        rw [htarget] at hpack
        cases hpack
      have hfits : ∀ w ∈ v :: rest, Fits codec EnumDecl.Canonical info.kind w :=
        fun w hw => (h w hw).fits hne
      obtain ⟨body, hbody, hread⟩ := packed_written hsound hfits path
      refine ⟨bodyRecord info.number body, ?_, fun hlen s done hs hclear hold => ?_⟩
      · rw [listRecords, if_neg (by simp), if_pos hpack, hbody]
        rfl
      · have hshort : body.length < UInt64.size := by
          simp only [bodyRecord, lengthPrefixed, List.length_append] at hlen
          omega
        have hscalar : (slotOf decl (.plain info)).form = .scalar info.kind true :=
          hform.trans (Form.ofKind_of_ne hne)
        have hsame : (v :: rest).map (·.revise codec codec.settle info.kind) = v :: rest := by
          have hid : ∀ w ∈ v :: rest, w.revise codec codec.settle info.kind = id w :=
            fun w hw => Value.revise_of_fits (hfits w hw)
          rw [List.map_congr_left hid, List.map_id]
        have hpush : Value.pushItems (s.get? (slotOf decl (.plain info)).name) (v :: rest) =
            some (.list (done ++ v :: rest)) := by
          rw [show s.get? (slotOf decl (.plain info)).name = _ from hold]
          rfl
        have hleads := leads_packed (m := s) hslot hnumber hscalar hpack hshort (hread hshort _)
        rw [hpush, hclear.store] at hleads
        rw [hsame]
        exact hleads

theorem map_written (hsound : codec.Sound) {decl : MessageDecl} (hdecl : decl ∈ codec.messages)
    {info : FieldInfo} {key value : Field} (hf : .map info key value ∈ decl.fields)
    {entries : List (String × Value)} (hsorted : KeyMap.Sorted entries)
    (hkeys : ∀ p ∈ entries, IsKeyText key.info.kind p.1)
    (h : ∀ p ∈ entries, Conforms codec (canonical level) (Returns codec) value.info.kind p.2)
    (path : String) :
    ∃ bs, codec.entryRecords info.number key.info value.info path
        (entries.map fun p => (p.1, (p.2.view codec.valueBytes).write)) = .ok bs ∧
      (bs.length < UInt64.size → Puts codec decl (.map info key value)
        (some (.map (entries.map fun p =>
          (p.1, p.2.revise codec codec.settle value.info.kind)))) bs) := by
  have hformed := hsound.formed decl hdecl _ hf
  have hdefault : codec.defaultOf (.map info key value) = some (.map []) := defaultOf_map hformed
  obtain ⟨bs, hbs, hleads⟩ := entries_written hsound hformed (hsound.indexed decl hdecl _ hf)
    hkeys h (slotsOf_number (hsound.numbers decl hdecl) hf) (hsound.range decl hdecl _ hf) rfl path
  refine ⟨bs, hbs, fun hlen s hs hclear hold => ?_⟩
  have hall := hleads hlen s [] hs hclear (hold.trans hdefault)
  -- Entries come in the order of their keys, so each goes behind those before it.
  rwa [(hsorted.map fun p => _).foldl_insert] at hall

theorem Holds.written (hsound : codec.Sound) {decl : MessageDecl} (hdecl : decl ∈ codec.messages)
    {field : Field} (hf : field ∈ decl.fields) {v : Value}
    (h : Holds codec (canonical level) (Returns codec) field v) (path : String) :
    ∃ bs, codec.fieldRecords field path (v.view codec.valueBytes) = .ok bs ∧
      (bs.length < UInt64.size → Puts codec decl field
        (codec.settle field (some (v.revise codec codec.settle field.contentKind))) bs) := by
  cases h with
  | single hsingle hv =>
    rw [fieldRecords, if_neg (by rw [hsingle]; decide)]
    exact single_written hsound hdecl hf hsingle hv path
  | @list info items hrep hvs =>
    have hexplicit : (Field.plain info).implicitPresence = false := by
      simp [Field.implicitPresence, Field.info, hrep]
    rw [fieldRecords, if_pos hrep, settle_explicit codec hexplicit, Value.revise_list]
    simp only [Value.view, Value.writers_eq_map]
    obtain ⟨bs, hbs, hleads⟩ := list_written hsound hdecl hf hrep hvs path
    refine ⟨bs, hbs, fun hlen s hs hclear hold => ?_⟩
    exact hleads hlen s [] hs hclear
      (hold.trans (defaultOf_list (hsound.formed decl hdecl _ hf) hrep))
  | @map info key value entries hsorted hkeys hvs =>
    have hexplicit : (Field.map info key value).implicitPresence = false := by
      simp [Field.implicitPresence, Field.isMap]
    rw [settle_explicit codec hexplicit, Value.revise_map]
    simp only [fieldRecords, Value.view, Value.entryWriters_eq_map]
    exact map_written hsound hdecl hf hsorted hkeys hvs path

/-! ## Messages -/

section

variable {decl : MessageDecl} {m : Message}

/-- What a property is once its message is written and read again. -/
def settled (codec : Codec) (m : Message) (field : Field) : Option Value :=
  codec.settle field
    ((m.get? field.info.name).map (·.revise codec codec.settle field.contentKind))

theorem presentRecords_eq (codec : Codec) (decl : MessageDecl) (m : Message) (field : Field) :
    codec.presentRecords decl (Value.fieldViews codec.valueBytes m.fields) field =
      match m.get? field.info.name with
      | none => .ok []
      | some v => codec.fieldRecords field (fieldPath decl field.info)
          (v.view codec.valueBytes) := by
  rw [presentRecords, Value.fieldViews_eq_map, KeyMap.find?_map]
  unfold Message.get?
  cases KeyMap.find? m.fields field.info.name <;> rfl

/-- The other members of the oneof of a field that is there stay absent throughout. -/
theorem unrivalled_of_oneOfEach (hsound : codec.Sound) (hdecl : decl ∈ codec.messages)
    (hone : OneOfEach decl m) {field : Field} (hf : field ∈ decl.fields)
    (hpresent : (m.get? field.info.name).isSome = true) {s : Message}
    (hs : ∀ g ∈ decl.fields, s.get? g.info.name = codec.defaultOf g ∨
      s.get? g.info.name = codec.settled m g) :
    (slotOf decl field).Unrivalled s := by
  intro name hname
  obtain ⟨g, hg, rfl⟩ := List.mem_map.1 hname
  obtain ⟨hg, hmember, honeof, hnumber⟩ := MessageDecl.mem_siblings.1 hg
  have hne : g ≠ field := fun heq => hnumber (by rw [heq])
  have habsent : m.get? g.info.name = none := by
    by_contra hsome
    rw [← ne_eq, Option.ne_none_iff_isSome] at hsome
    exact hne (hone field hf g hg hmember honeof.symm hpresent hsome).symm
  have hdefault : codec.defaultOf g = none := by
    rw [← honeof] at hmember
    exact defaultOf_of_oneof (hsound.formed decl hdecl g hg)
      (hsound.oneofs decl hdecl g hg hmember) hmember
  refine ⟨fun heq => hne ?_, ?_⟩
  · exact List.inj_on_of_nodup_map (hsound.properties decl hdecl) hg hf heq
  · rcases hs g hg with h | h
    · rw [h, hdefault]
    · rw [h, settled, habsent, Option.map_none, settle_none, hdefault]

/-- The records of some fields put their properties one after the other. -/
theorem recordsOf_written (hsound : codec.Sound) (hdecl : decl ∈ codec.messages)
    (hone : OneOfEach decl m)
    (hholds : ∀ field ∈ decl.fields, ∀ v, m.get? field.info.name = some v →
      Holds codec (canonical level) (Returns codec) field v)
    {fields : List Field} (hsub : ∀ field ∈ fields, field ∈ decl.fields)
    (hnames : (fields.map (·.info.name)).Nodup) :
    ∃ bs, codec.recordsOf decl (Value.fieldViews codec.valueBytes m.fields) fields = .ok bs ∧
      (bs.length < UInt64.size → ∀ s : Message, s.Sorted →
        (∀ g ∈ decl.fields, s.get? g.info.name = codec.defaultOf g ∨
          s.get? g.info.name = codec.settled m g) →
        (∀ field ∈ fields, s.get? field.info.name = codec.defaultOf field) →
        Leads codec (slotsOf decl) bs s (s.putAll fields (codec.settled m))) := by
  induction fields with
  | nil => exact ⟨[], rfl, fun _ s _ _ _ => .nil⟩
  | cons field rest ih =>
    rw [List.forall_mem_cons] at hsub
    rw [List.map_cons, List.nodup_cons] at hnames
    obtain ⟨more, hmore, hleads⟩ := ih hsub.2 hnames.2
    -- The records of the first field put its property.
    have hfirst : ∃ first, codec.presentRecords decl
          (Value.fieldViews codec.valueBytes m.fields) field = .ok first ∧
        (first.length < UInt64.size → ∀ s : Message, s.Sorted →
          (∀ g ∈ decl.fields, s.get? g.info.name = codec.defaultOf g ∨
            s.get? g.info.name = codec.settled m g) →
          s.get? field.info.name = codec.defaultOf field →
          Leads codec (slotsOf decl) first s
            (s.put field.info.name (codec.settled m field))) := by
      rw [presentRecords_eq]
      cases hv : m.get? field.info.name with
      | none =>
        refine ⟨[], rfl, fun _ s hs _ hold => ?_⟩
        rw [settled, hv, Option.map_none, settle_none, hs.put_self hold]
        exact .nil
      | some v =>
        obtain ⟨first, hfirst, hputs⟩ := (hholds field hsub.1 v hv).written hsound hdecl hsub.1
          (fieldPath decl field.info)
        refine ⟨first, hfirst, fun hlen s hs hstate hold => ?_⟩
        rw [settled, hv, Option.map_some]
        refine hputs hlen s hs ?_ hold
        exact unrivalled_of_oneOfEach hsound hdecl hone hsub.1 (by rw [hv]; rfl) hstate
    obtain ⟨first, hfirst, hput⟩ := hfirst
    refine ⟨first ++ more, ?_, fun hlen s hs hstate hold => ?_⟩
    · simp only [recordsOf, hfirst, hmore]
    · rw [List.length_append] at hlen
      rw [List.forall_mem_cons] at hold
      refine (hput (by omega) s hs hstate hold.1).append ?_
      refine hleads (by omega) _ (hs.put _ _) ?_ (Message.get?_put_of_notMem hnames.1 hold.2 _)
      intro g hg
      rw [Message.get?_put]
      split
      next heq =>
        have : g = field :=
          List.inj_on_of_nodup_map (hsound.properties decl hdecl) hg hsub.1 heq.symm
        exact .inr (by rw [this])
      · exact hstate g hg

/-- All properties of a message put into the new message of its type make the settled message. -/
theorem putAll_settled (hsound : codec.Sound) {rules : Discipline} (hdecl : decl ∈ codec.messages)
    (h : ConformsTo codec rules decl m) :
    (codec.fresh decl).putAll decl.fields (codec.settled m) =
      m.revise codec codec.settle decl := by
  have hnames := hsound.properties decl hdecl
  have hput : ∀ field ∈ decl.fields, codec.settled m field =
      (m.revise codec codec.settle decl).get? field.info.name :=
    fun field hf => (Message.get?_revise hnames hf).symm
  rw [Message.putAll_congr hput]
  refine putAll_fresh codec hnames (h.sorted.revise _ _ _) ?_ ?_
  · rw [Message.typeName_revise, h.typeName]
  · intro name v hv
    by_contra hname
    have hne : ∀ field ∈ decl.fields, field.info.name ≠ name :=
      fun field hf heq => hname ⟨field, hf, heq⟩
    rw [Message.get?_revise_of_forall_ne hne] at hv
    exact hname (h.declared hv)

/-- A message of a type returns. -/
theorem ConformsTo.returns (hsound : codec.Sound)
    (hlevel : ∀ decl m, level decl m → OneOfEach decl m)
    (h : ConformsTo codec (canonical level) decl m) :
    decl ∈ codec.messages → Returns codec decl m := by
  refine ConformsTo.induct (fun decl m hm ih hdecl => ?_) h
  have hnames := hsound.properties decl hdecl
  have hholds : ∀ field ∈ decl.fields, ∀ v, m.get? field.info.name = some v →
      Holds codec (canonical level) (Returns codec) field v := by
    intro field hf v hv
    exact (ih field hf v hv).imp fun target d x _ hd hx => hx.2 (mem_of_message hd)
  obtain ⟨body, hbody, hleads⟩ := recordsOf_written hsound hdecl (hlevel decl m hm.level) hholds
    (fun _ hf => hf) hnames
  refine ⟨body, hbody, fun hlen => ?_⟩
  rw [← putAll_settled hsound hdecl hm]
  refine hleads hlen (codec.fresh decl) (sorted_fresh codec decl) ?_ ?_
  · intro g hg
    exact .inl (get?_fresh hnames hg)
  · intro field hf
    exact get?_fresh hnames hf

end

/-! ## Writing and reading -/

/-- Writing and reading a message settles it. -/
theorem decode_encode_settle (hsound : codec.Sound)
    (hlevel : ∀ decl m, level decl m → OneOfEach decl m) {typeName : String}
    {decl : MessageDecl} {m : Message} (htype : codec.message typeName = .ok decl)
    (hown : codec.message m.typeName = .ok decl) (hm : ConformsTo codec (canonical level) decl m) :
    ∃ bytes, codec.encode m = .ok bytes ∧
      (bytes.length < UInt64.size →
        codec.decode typeName bytes = .ok (m.revise codec codec.settle decl)) := by
  have hdecl := mem_of_message htype
  obtain ⟨bytes, hbytes, hleads⟩ := hm.returns hsound hlevel hdecl
  refine ⟨bytes, ?_, fun hlen => ?_⟩
  · simp only [encode, hown, hbytes]
  · simp only [decode, htype, newMessage_eq hsound hdecl]
    exact hleads hlen 0

/-- Without negative zeros, to settle a message is to fill it. -/
theorem ConformsTo.revise_settle_eq_fill {rules : Discipline} {decl : MessageDecl} {m : Message}
    (h : ConformsTo codec rules decl m)
    (hlevel : ∀ decl m, rules.level decl m → NoNegativeZero decl m) :
    m.revise codec codec.settle decl = m.revise codec codec.fill decl := by
  refine h.revise_congr fun decl m hm field hf => ?_
  cases hv : m.get? field.info.name with
  | none => rw [Option.map_none, settle_none, fill, Option.none_or]
  | some v =>
    rw [Option.map_some]
    cases himplicit : field.implicitPresence with
    | false => rw [settle_explicit codec himplicit, fill, Option.some_or]
    | true =>
      obtain ⟨hfits, hkind⟩ := (hm.holds hf hv).fits_of_implicit himplicit
      rw [settle_implicit codec himplicit, hkind, Value.revise_of_fits hfits, fill,
        Option.some_or, Value.plainZero_of_not (hlevel decl m hm.level field hf himplicit v hv)]

/-- A message of a type of resolved files is written without a fault, and reading the bytes
gives the message with every absent field at its default, in every message inside as well.
Lengths are written in 64 bits, so the bytes have to be fewer than 2^64. The type can be read
under any name that finds it, with or without a leading dot. -/
theorem decode_encode (hresolved : codec.Resolved) (hvalid : codec.Valid) {typeName : String}
    {decl : MessageDecl} {m : Message} (htype : codec.message typeName = .ok decl)
    (hown : codec.message m.typeName = .ok decl)
    (hm : ConformsTo codec (canonical fun decl m => OneOfEach decl m ∧ NoNegativeZero decl m)
      decl m) :
    ∃ bytes, codec.encode m = .ok bytes ∧
      (bytes.length < UInt64.size →
        codec.decode typeName bytes = .ok (m.revise codec codec.fill decl)) := by
  rw [← hm.revise_settle_eq_fill fun _ _ hlevel => hlevel.2]
  exact decode_encode_settle (hresolved.sound hvalid) (fun _ _ hlevel => hlevel.1) htype hown hm

/-- A tree without a height, with a branch that has one and with marks of two kinds, of which
one is not declared. -/
def sapling : Message :=
  ⟨"grove.Tree",
    [("branches", .list [.message ⟨"grove.Tree",
        [("club", .int64 (-7)), ("treeHeight", .double ⟨4609434218613702656⟩)]⟩]),
      ("marks", .map [("-3", .enum (.named "FIR")), ("12", .enum (.unknown 9))])]⟩

theorem decode_encode_sapling :
    (grove .double {}).Resolved ∧ (grove .double {}).Valid ∧
      ConformsTo (grove .double {})
        (canonical fun decl m => OneOfEach decl m ∧ NoNegativeZero decl m)
        (groveTree .double) sapling ∧
      ∃ bytes, (grove .double {}).encode sapling = .ok bytes ∧
        (bytes.length < UInt64.size → (grove .double {}).decode ".grove.Tree" bytes =
          .ok (sapling.revise (grove .double {}) (fill (grove .double {})) (groveTree .double))) := by
  have hm := conformsTo_of_within 2 (show ConformsWithin (grove .double {})
    (canonical fun decl m => OneOfEach decl m ∧ NoNegativeZero decl m) 2 (groveTree .double)
    sapling by decide +kernel)
  exact ⟨resolved_grove_double, valid_grove_double, hm,
    decode_encode resolved_grove_double valid_grove_double (by decide +kernel)
      (by decide +kernel) hm⟩

end ProtoStub.Codec
