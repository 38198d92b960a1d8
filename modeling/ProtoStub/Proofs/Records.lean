import ProtoStub.Proofs.Concatenation
import ProtoStub.Proofs.Defaults

/-!
# What written records do to a message

Bytes *lead* from one message to another (`Leads`) if reading them into the first gives the
second, wherever they stand. Since reading is an action of concatenation, records can be looked
at one by one: this file says for every sort of record that can be written where it leads.
-/

namespace ProtoStub

theorem FieldKind.wireType_ne_len {kind : FieldKind} (h : kind.isPackable = true) :
    kind.wireType ≠ .len := by
  intro hlen
  rw [FieldKind.isPackable, hlen] at h
  cases h

namespace Codec

open Wire

/-! ## Runs -/

/-- Reading the bytes into one message gives the other. -/
def Leads (codec : Codec) (slots : Slots) (bytes : List UInt8) (m m' : Message) : Prop :=
  ∀ offset, codec.decodeInto slots ⟨offset, bytes⟩ m = .ok m'

section

variable {codec : Codec} {slots : Slots} {slot : Slot} {number : UInt32} {m m' : Message}

theorem Leads.nil : Leads codec slots [] m m :=
  fun _ => decodeInto_nil codec slots m rfl

theorem Leads.append {a b : List UInt8} {m'' : Message} (h : Leads codec slots a m m')
    (h' : Leads codec slots b m' m'') : Leads codec slots (a ++ b) m m'' := by
  intro offset
  exact (decodeInto_extend (h offset) b).trans (h' _)

/-- A single record leads to the message into which it is entered. -/
theorem leads_of_record {bytes : List UInt8}
    (h : ∀ offset, ∃ occurrence,
      codec.readRecord slots ⟨offset, bytes⟩ = .ok (occurrence, ⟨offset + bytes.length, []⟩) ∧
        codec.enter m occurrence = .ok m') :
    Leads codec slots bytes m m' := by
  intro offset
  obtain ⟨occurrence, hread, henter⟩ := h offset
  have hne : bytes ≠ [] := by
    rintro rfl
    exact absurd (readRecord_moved hread).1.size_lt (Nat.lt_irrefl _)
  rw [decodeInto_eq codec slots m hne, hread]
  simp only [henter]
  exact decodeInto_nil codec slots m' rfl

/-- A tag brings the reader to the slot of its field. -/
theorem readRecord_tag (hslot : slots number = some slot) (hnumber : IsFieldNumber number)
    (wireType : WireType) (offset : Nat) (rest : List UInt8) :
    codec.readRecord slots ⟨offset, encodeTag number wireType ++ rest⟩ =
      codec.readSlot slot wireType ⟨offset + (encodeTag number wireType).length, rest⟩ := by
  rw [readRecord, encodeTag, takes_varint _ offset rest]
  simp only [splitTag_tagValue hnumber wireType, hslot]

end

/-! ## Storing -/

/-- The slot of a field. -/
def slotOf (decl : MessageDecl) (field : Field) : Slot :=
  { name := field.info.name
    path := fieldPath decl field.info
    form := .ofField field
    rivals := (decl.siblings field).map (·.info.name) }

theorem slotsOf_number {decl : MessageDecl} (h : decl.DistinctNumbers) {field : Field}
    (hf : field ∈ decl.fields) : slotsOf decl field.info.number = some (slotOf decl field) := by
  rw [slotsOf, MessageDecl.fieldByNumber?_of_mem h hf]
  rfl

/-- None of the properties that a slot unsets is there. -/
def Slot.Unrivalled (slot : Slot) (m : Message) : Prop :=
  ∀ name ∈ slot.rivals, name ≠ slot.name ∧ m.get? name = none

theorem Slot.Unrivalled.set {slot : Slot} {m : Message} (h : slot.Unrivalled m) (v : Value) :
    slot.Unrivalled (m.set slot.name v) := by
  intro name hname
  obtain ⟨hne, habsent⟩ := h name hname
  exact ⟨hne, by rw [Message.get?_set, if_neg hne.symm, habsent]⟩

theorem foldl_unset_of_absent {m : Message} {names : List String}
    (h : ∀ name ∈ names, m.get? name = none) : names.foldl Message.unset m = m := by
  induction names with
  | nil => rfl
  | cons name rest ih =>
    rw [List.forall_mem_cons] at h
    rw [List.foldl_cons, Message.unset_of_get?_none h.1, ih h.2]

theorem Slot.Unrivalled.store {slot : Slot} {m : Message} (h : slot.Unrivalled m) (v : Value) :
    slot.store m (some v) = m.set slot.name v :=
  foldl_unset_of_absent fun name hname => (h.set v name hname).2

/-! ## Single values -/

/-- Bytes that are read as a single value of a kind. -/
inductive Carries (codec : Codec) : FieldKind → Value → List UInt8 → Prop
  | scalar {kind : FieldKind} {v : Value} {bs : List UInt8}
      (takes : ∀ path, Takes (codec.readScalar kind path) bs v) : Carries codec kind v bs
  | message {target : TypeRef} {decl : MessageDecl} {m : Message} {body : List UInt8}
      (declared : codec.message target.fqName = .ok decl) (short : body.length < UInt64.size)
      (leads : Leads codec (slotsOf decl) body (codec.fresh decl) m) :
      Carries codec (.message target) (.message m) (lengthPrefixed body)

/-- What a property holds after a single value is read into it. -/
def received (repeated : Bool) (old : Option Value) (v : Value) : Value :=
  if repeated then Value.pushItem old v else v

theorem Form.ofKind_of_ne {kind : FieldKind} {repeated : Bool}
    (h : ∀ target, kind ≠ .message target) : Form.ofKind kind repeated = .scalar kind repeated := by
  cases kind with
  | message target => exact absurd rfl (h target)
  | _ => rfl

theorem absorb_singleton (repeated : Bool) (old : Option Value) (v : Value) :
    absorb repeated old [v] = some (received repeated old v) := by
  cases repeated with
  | false => rfl
  | true =>
    cases old with
    | none => rfl
    | some w => cases w <;> rfl

variable {codec : Codec} {slots : Slots} {slot : Slot} {number : UInt32} {m : Message}

variable (codec) in
theorem readRecord_body (hslot : slots number = some slot) (hnumber : IsFieldNumber number)
    {nested : Nested} (hform : slot.form = .nested nested) {body : List UInt8}
    (hshort : body.length < UInt64.size) (offset : Nat) (more : List UInt8) :
    codec.readRecord slots ⟨offset, bodyRecord number body ++ more⟩ =
      .ok (.body slot nested ⟨offset + (encodeTag number .len).length +
          (encodeVarint (UInt64.ofNat body.length)).length, body⟩,
        ⟨offset + (bodyRecord number body).length, more⟩) := by
  rw [bodyRecord, List.append_assoc, readRecord_tag hslot hnumber]
  simp only [readSlot, hform, if_true, Cursor.body_lengthPrefixed hshort]
  rw [List.length_append, ← Nat.add_assoc]
  rfl

/-- A record with something nested leads to the message that holds it once it is read. -/
theorem leads_body (hslot : slots number = some slot) (hnumber : IsFieldNumber number)
    {nested : Nested} (hform : slot.form = .nested nested) {inner : Slots} {start done : Message}
    (hopen : codec.openNested slot.path nested (m.get? slot.name) = .ok (inner, start))
    {body : List UInt8} (hshort : body.length < UInt64.size)
    (hleads : Leads codec inner body start done) :
    Leads codec slots (bodyRecord number body) m
      (slot.store m (some (nested.close (m.get? slot.name) done))) := by
  refine leads_of_record fun offset => ?_
  have hread := readRecord_body codec hslot hnumber hform hshort offset []
  rw [List.append_nil] at hread
  exact ⟨_, hread, by simp only [enter, hopen, hleads _]⟩

/-- A message is read into a new one unless its property already holds another. -/
theorem openNested_message (hsound : codec.Sound) {target : TypeRef} {decl : MessageDecl}
    (hdecl : codec.message target.fqName = .ok decl) {repeated : Bool} {old : Option Value}
    (hold : repeated = true ∨ old = none ∨ old = some (.message (codec.fresh decl)))
    (path : String) :
    codec.openNested path (.message target repeated) old =
      .ok (slotsOf decl, codec.fresh decl) := by
  have hnew := newMessage_eq hsound (mem_of_message hdecl)
  have hrepeated : codec.openNested path (.message target true) old =
      .ok (slotsOf decl, codec.fresh decl) := by
    simp only [openNested, hdecl, hnew]
    rfl
  rcases hold with rfl | rfl | rfl
  · exact hrepeated
  · simp only [openNested, hdecl, hnew]
    rfl
  · cases repeated with
    | true => exact hrepeated
    | false => simp only [openNested, hdecl]

theorem takes_scalarRecord (hslot : slots number = some slot) (hnumber : IsFieldNumber number)
    {kind : FieldKind} {repeated : Bool} (hform : slot.form = .scalar kind repeated) {v : Value}
    {bs : List UInt8} (htakes : Takes (codec.readScalar kind slot.path) bs v) :
    Takes (codec.readRecord slots) (encodeTag number kind.wireType ++ bs)
      (.scalars slot repeated [v]) := by
  intro offset more
  have hwire : ¬ (repeated && kind.isPackable && decide (kind.wireType = .len)) = true := by
    rw [Bool.and_eq_true, Bool.and_eq_true, decide_eq_true_eq]
    rintro ⟨⟨-, hpack⟩, hlen⟩
    exact FieldKind.wireType_ne_len hpack hlen
  rw [List.append_assoc, readRecord_tag hslot hnumber, List.length_append, ← Nat.add_assoc]
  simp only [readSlot, hform, if_neg hwire, if_true, htakes _ more]
  rfl

/-- A record with a single value leads to the message that has received it. -/
theorem Carries.leads (hsound : codec.Sound) {kind : FieldKind} {v : Value} {bs : List UInt8}
    (h : Carries codec kind v bs) (hslot : slots number = some slot)
    (hnumber : IsFieldNumber number) {repeated : Bool}
    (hform : slot.form = .ofKind kind repeated)
    (hold : ∀ target decl, kind = .message target → codec.message target.fqName = .ok decl →
      repeated = true ∨ m.get? slot.name = none ∨
        m.get? slot.name = some (.message (codec.fresh decl))) :
    Leads codec slots (encodeTag number kind.wireType ++ bs) m
      (slot.store m (some (received repeated (m.get? slot.name) v))) := by
  cases h with
  | message hdecl hshort hleads =>
    have hopen := openNested_message hsound hdecl (hold _ _ rfl hdecl) slot.path
    have := leads_body hslot hnumber hform hopen hshort hleads
    cases repeated <;> exact this
  | scalar htakes =>
    have hscalar : slot.form = .scalar kind repeated := by
      rw [hform]
      refine Form.ofKind_of_ne fun target heq => ?_
      -- A message is not read as a scalar.
      subst heq
      have := htakes "" 0 []
      cases this
    refine leads_of_record fun offset => ⟨.scalars slot repeated [v], ?_, ?_⟩
    · have hread := takes_scalarRecord hslot hnumber hscalar (htakes slot.path) offset []
      rwa [List.append_nil] at hread
    · simp only [enter, absorb_singleton]

/-! ## Lists in one record -/

/-- Values that are read one after the other from bytes that hold nothing else. -/
theorem readPacked_cons {kind : FieldKind} {path : String} {v : Value} {bs more : List UInt8}
    {values : List Value} (h : Takes (codec.readScalar kind path) bs v)
    (hmore : ∀ offset, codec.readPacked kind path ⟨offset, more⟩ = .ok values) (offset : Nat) :
    codec.readPacked kind path ⟨offset, bs ++ more⟩ = .ok (v :: values) := by
  have hne : ¬ (bs ++ more).isEmpty = true := by
    rw [List.isEmpty_iff, List.append_eq_nil_iff]
    exact fun hnil => ne_nil_of_takes h hnil.1
  rw [readPacked, if_neg hne]
  split
  next he =>
    rw [h offset more] at he
    cases he
  next hr =>
    rw [h offset more] at hr
    cases hr
    rw [hmore]
    rfl

theorem takes_packedRecord (hslot : slots number = some slot) (hnumber : IsFieldNumber number)
    {kind : FieldKind} (hform : slot.form = .scalar kind true) (hpack : kind.isPackable = true)
    {body : List UInt8} (hshort : body.length < UInt64.size) {values : List Value}
    (hread : ∀ offset, codec.readPacked kind slot.path ⟨offset, body⟩ = .ok values) :
    Takes (codec.readRecord slots) (bodyRecord number body) (.scalars slot true values) := by
  intro offset more
  rw [bodyRecord, List.append_assoc, readRecord_tag hslot hnumber, List.length_append,
    ← Nat.add_assoc]
  simp only [readSlot, hform, hpack, Bool.and_self, decide_true, if_true,
    Cursor.body_lengthPrefixed hshort, hread]
  rfl

theorem leads_packed (hslot : slots number = some slot) (hnumber : IsFieldNumber number)
    {kind : FieldKind} (hform : slot.form = .scalar kind true) (hpack : kind.isPackable = true)
    {body : List UInt8} (hshort : body.length < UInt64.size) {values : List Value}
    (hread : ∀ offset, codec.readPacked kind slot.path ⟨offset, body⟩ = .ok values) :
    Leads codec slots (bodyRecord number body) m
      (slot.store m (Value.pushItems (m.get? slot.name) values)) := by
  refine leads_of_record fun offset => ⟨.scalars slot true values, ?_, rfl⟩
  have htakes := takes_packedRecord hslot hnumber hform hpack hshort hread offset []
  rwa [List.append_nil] at htakes

/-! ## Entries of maps -/

theorem exists_zeroOf_key (codec : Codec) (allowed : EnumDecl → EnumValue → Prop)
    {kind : FieldKind} (h : kind.isMapKey = true) :
    ∃ k, zeroOf kind = .ok k ∧ Fits codec allowed kind k := by
  cases kind with
  | double | float | bytes | enum target | message target | group => cases h
  | _ => exact ⟨_, rfl, by constructor⟩

/-- An entry starts with a key and a value. -/
theorem openNested_entry (hsound : codec.Sound) {info : FieldInfo} {key value : Field}
    (hf : (Field.map info key value).Formed) (hindexed : codec.Indexed value.info.kind)
    (level : MessageDecl → Message → Prop) (path : String) (old : Option Value) :
    ∃ k v, codec.openNested path (.entry key.info value.info) old =
        .ok (entrySlots path key.info value.info, ⟨"", [(keyName, k), (valueName, v)]⟩) ∧
      Fits codec EnumDecl.Canonical key.info.kind k ∧
      Conforms codec (canonical level) (fun decl x => x = codec.fresh decl) value.info.kind v := by
  cases hf with | map _ _ _ _ hkey _ _ hkind hinitial => ?_
  obtain ⟨k, hk, hfits⟩ := exists_zeroOf_key codec EnumDecl.Canonical hkey
  cases hmessage : value.info.hasMessageKind with
  | false =>
    obtain ⟨v, hv, hvfits⟩ := exists_zero hkind hmessage hinitial hindexed
    refine ⟨k, v, ?_, hfits, .scalar hvfits⟩
    simp only [openNested, hk, hv, bind, Except.bind]
    split
    next target _ htarget =>
      rw [FieldInfo.hasMessageKind, htarget] at hmessage
      cases hmessage
    next heq _ =>
      cases heq
      rfl
    next heq _ => cases heq
  | true =>
    rw [FieldInfo.hasMessageKind] at hmessage
    split at hmessage
    next target htarget =>
      rw [htarget] at hindexed
      obtain ⟨decl, hdecl⟩ := hindexed
      have hnew : codec.create target.fqName = .ok (codec.fresh decl) := by
        rw [create, hdecl]
        exact newMessage_eq hsound (mem_of_message hdecl)
      have hnone : codec.defaultValue value.info = .ok none := by
        rw [defaultValue, hinitial, htarget]
        rfl
      refine ⟨k, .message (codec.fresh decl), ?_, hfits, ?_⟩
      · simp only [openNested, hk, hnone, hnew, htarget, bind, Except.bind]
        rfl
      · rw [htarget]
        exact .message hdecl rfl
    · cases hmessage

/-- A record with an entry leads to the map with the entry. -/
theorem leads_entry (hsound : codec.Sound) (hslot : slots number = some slot)
    (hnumber : IsFieldNumber number) {info : FieldInfo} {key value : Field}
    (hf : (Field.map info key value).Formed) (hindexed : codec.Indexed value.info.kind)
    (hform : slot.form = .nested (.entry key.info value.info)) {k v : Value}
    {kb vb : List UInt8} (hk : Carries codec key.info.kind k kb)
    (hv : Carries codec value.info.kind v vb)
    (hshort : (encodeTag 1 key.info.kind.wireType ++ kb ++
      (encodeTag 2 value.info.kind.wireType ++ vb)).length < UInt64.size) :
    Leads codec slots
      (bodyRecord number (encodeTag 1 key.info.kind.wireType ++ kb ++
        (encodeTag 2 value.info.kind.wireType ++ vb))) m
      (slot.store m (some (Value.putEntry (m.get? slot.name) (textOfKey k) v))) := by
  obtain ⟨k₀, v₀, hopen, -, hv₀⟩ :=
    openNested_entry hsound hf hindexed (fun _ _ => True) slot.path (m.get? slot.name)
  generalize hstart : (⟨"", [(keyName, k₀), (valueName, v₀)]⟩ : Message) = start at hopen
  have hvalue : start.get? valueName = some v₀ := by
    subst hstart
    rfl
  have hkeySlot : entrySlots slot.path key.info value.info 1 =
      some ⟨keyName, slot.path, .ofKind key.info.kind false, []⟩ := rfl
  have hvalueSlot : entrySlots slot.path key.info value.info 2 =
      some ⟨valueName, slot.path, .ofKind value.info.kind false, []⟩ := rfl
  have hne : keyName ≠ valueName := by decide
  have hkey : Leads codec (entrySlots slot.path key.info value.info)
      (encodeTag 1 key.info.kind.wireType ++ kb) start (start.set keyName k) := by
    refine hk.leads hsound hkeySlot (by decide) rfl ?_
    intro target decl htarget _
    cases hf with | map _ _ _ _ hmapKey _ _ _ _ => ?_
    rw [htarget] at hmapKey
    cases hmapKey
  have hrest : Leads codec (entrySlots slot.path key.info value.info)
      (encodeTag 2 value.info.kind.wireType ++ vb) (start.set keyName k)
      ((start.set keyName k).set valueName v) := by
    refine hv.leads hsound hvalueSlot (by decide) rfl ?_
    intro target decl htarget hdecl
    refine .inr (.inr ?_)
    rw [Message.get?_set, if_neg hne, hvalue]
    rw [htarget] at hv₀
    cases hv₀ with
    | scalar hfits => cases hfits
    | message hdecl' hfresh =>
      rw [hdecl] at hdecl'
      cases hdecl'
      rw [hfresh]
  have hleads := leads_body hslot hnumber hform hopen hshort (hkey.append hrest)
  have hdone : ((start.set keyName k).set valueName v).get? keyName = some k := by
    rw [Message.get?_set, if_neg hne.symm, Message.get?_set, if_pos rfl]
  have hdone' : ((start.set keyName k).set valueName v).get? valueName = some v := by
    rw [Message.get?_set, if_pos rfl]
  simpa only [Nested.close, hdone, hdone', Option.map_some, Option.getD_some] using hleads

end Codec
end ProtoStub
