import ProtoStub.Proofs.RecordOrder

/-!
# Entries of maps are messages

A map stands for a list of messages, its entries, which have a key and a value. The records of an
entry are not read as that message: the key and the value are there before the first record, faults
name the map, and the two properties have no oneof. What is read is still what the message would
give, with what is absent filled in, and it fails where the message fails
(`entry_reads_as_message`). The argument has two halves:

* the slots of an entry are those of its message with other paths (`withPath_slotsOf`), and a path is
  seen in the text of a fault only (`repathed_decodeInto`);
* two runs over the same slots, one of them into a message in which what is absent in the other is
  filled in, stay like this record by record (`alongside_decodeInto`).
-/

namespace ProtoStub

/-! ## The message of an entry -/

/-- A field of an entry as the map sees it: it always holds a value. -/
def FieldInfo.ofEntry (info : FieldInfo) : FieldInfo :=
  { info with optional := false, initial := info.kind.initialValue }

/-- The message of an entry has two fields that hold one value each. -/
structure MessageDecl.IsEntry (entry : MessageDecl) (key value : FieldInfo) : Prop where
  fields : entry.fields = [.plain key, .plain value]
  formedKey : (Field.plain key).Formed
  formedValue : (Field.plain value).Formed
  singleKey : key.repeated = false
  singleValue : value.repeated = false
  isMapKey : key.kind.isMapKey = true
  nameKey : key.name = Codec.keyName
  nameValue : value.name = Codec.valueName
  numberKey : key.number = 1
  numberValue : value.number = 2

theorem MessageDecl.siblings_eq_nil {decl : MessageDecl} {field : Field}
    (h : ∀ other ∈ decl.fields, field.info.oneof.isSome = true →
      other.info.oneof = field.info.oneof → other.info.number = field.info.number) :
    decl.siblings field = [] := by
  refine List.filter_eq_nil_iff.2 fun other hmem hsibling => ?_
  simp only [Bool.and_eq_true, decide_eq_true_eq] at hsibling
  exact hsibling.2 (h other hmem hsibling.1.1 hsibling.1.2)

theorem MessageDecl.names_of_checkMapEntry {fqName : String} {key value : Field}
    (h : checkMapEntry fqName [key, value] = .ok ()) :
    key.info.protoName = "key" ∧ value.info.protoName = "value" := by
  simp only [checkMapEntry] at h
  split at h
  next hnames => exact ⟨hnames.1, hnames.2.2.1⟩
  · cases h

theorem MessageDecl.info_of_entryField {info : FieldInfo} {result : Field}
    (h : entryField (.plain info) = .ok result) : result.info = info.ofEntry := by
  unfold entryField at h
  obtain ⟨shape, hshape, h⟩ := Except.exists_of_bind h
  obtain ⟨-, hinitial⟩ := FieldShape.of_eq_ok hshape
  cases h
  simp only [Field.withInfo, Field.info, hinitial]
  rfl

theorem Field.exists_plain_of_isSingle {field : Field} (h : field.isSingle = true) :
    ∃ info, field = .plain info ∧ info.repeated = false := by
  cases field with
  | map info key value => cases h
  | plain info => exact ⟨info, rfl, by simpa [Field.isSingle] using h⟩

theorem Field.Formed.name_eq {info : FieldInfo} (h : (Field.plain info).Formed) :
    info.name = Text.camelCase info.protoName :=
  h.named.name

theorem Field.Formed.kind_ne_group {info : FieldInfo} (h : (Field.plain info).Formed) :
    info.kind ≠ .group := by
  cases h with | plain _ kind => exact kind

theorem MessageDecl.exists_isEntry {entry : MessageDecl} (hformed : entry.Formed)
    (hmap : entry.isMapEntry = true) (hsingle : ∀ field ∈ entry.fields, field.isSingle = true)
    {key value : Field} (hkv : entry.keyAndValue = .ok (key, value)) :
    ∃ k v, entry.IsEntry k v ∧ key.info = k.ofEntry ∧ value.info = v.ofEntry := by
  have hcheck := hformed.entry hmap
  have hfields := hformed.fields
  unfold keyAndValue at hkv
  split at hkv
  next keyField valueField heq =>
    rw [heq] at hcheck hfields hsingle
    obtain ⟨k, rfl, hk⟩ := Field.exists_plain_of_isSingle (hsingle keyField (by simp))
    obtain ⟨v, rfl, hv⟩ := Field.exists_plain_of_isSingle (hsingle valueField (by simp))
    obtain ⟨_, hkey, hkv⟩ := Except.exists_of_bind hkv
    obtain ⟨_, hvalue, hkv⟩ := Except.exists_of_bind hkv
    cases hkv
    obtain ⟨hmapKey, hone, htwo⟩ := checkMapEntry_eq_ok hcheck
    obtain ⟨hkeyName, hvalueName⟩ := names_of_checkMapEntry hcheck
    have hkformed := hfields (.plain k) (by simp)
    have hvformed := hfields (.plain v) (by simp)
    refine ⟨k, v, ⟨heq, hkformed, hvformed, hk, hv, hmapKey, ?_, ?_, hone, htwo⟩,
      info_of_entryField hkey, info_of_entryField hvalue⟩
    · rw [hkformed.name_eq, show k.protoName = "key" from hkeyName]
      decide +kernel
    · rw [hvformed.name_eq, show v.protoName = "value" from hvalueName]
      decide +kernel
  · cases hkv

namespace Codec

open Wire

variable {codec : Codec}

/-! ## Reading an entry -/

/-- What the value of an entry is before the first record. -/
def startingValue (codec : Codec) (path : String) (value : FieldInfo) : Except Error Value := do
  let initial ← codec.defaultValue value
  match value.kind, initial with
  | .message target, _ => .message <$> codec.create target.fqName
  | _, some v => .ok v
  | _, none => .error (.internal (path ++ ": map value has no default"))

/-- An entry before the first record. -/
def startingEntry (k v : Value) : Message := ⟨"", [(keyName, k), (valueName, v)]⟩

/-- Reads the records of an entry: the text of its key, and its value. -/
def readEntry (codec : Codec) (path : String) (key value : FieldInfo) (c : Cursor) :
    Except Error (String × Value) := do
  let k ← zeroOf key.kind
  let v ← codec.startingValue path value
  let entry ← codec.decodeInto (entrySlots path key value) c (startingEntry k v)
  return (((entry.get? keyName).map textOfKey).getD "", (entry.get? valueName).getD default)

/-- Reads the records of a message into a new message. -/
def readMessage (codec : Codec) (decl : MessageDecl) (c : Cursor) : Except Error Message := do
  codec.decodeInto (slotsOf decl) c (← codec.newMessage decl)

theorem openNested_entry_eq (codec : Codec) (path : String) (key value : FieldInfo)
    (old : Option Value) :
    codec.openNested path (.entry key value) old = do
      let k ← zeroOf key.kind
      let v ← codec.startingValue path value
      return (entrySlots path key value, startingEntry k v) := by
  simp only [openNested, startingValue]
  cases zeroOf key.kind with
  | error e => rfl
  | ok k =>
    cases codec.defaultValue value with
    | error e => rfl
    | ok initial =>
      simp only [bind, Except.bind]
      generalize value.kind = kind
      cases kind with
      | message target => cases codec.create target.fqName <;> rfl
      | _ => cases initial <;> rfl

/-- A record of a map is an entry, which is put into the map. -/
theorem enter_entry (m : Message) (slot : Slot) (key value : FieldInfo) (c : Cursor) :
    codec.enter m (.body slot (.entry key value) c) =
      (fun r => slot.store m (some (Value.putEntry (m.get? slot.name) r.1 r.2))) <$>
        codec.readEntry slot.path key value c := by
  simp only [enter, openNested_entry_eq, readEntry]
  cases zeroOf key.kind with
  | error e => rfl
  | ok k =>
    cases codec.startingValue slot.path value with
    | error e => rfl
    | ok v =>
      simp only [bind, Except.bind, pure, Except.pure]
      cases codec.decodeInto (entrySlots slot.path key value) c (startingEntry k v) <;> rfl

theorem decode_eq_readMessage {typeName : String} {decl : MessageDecl}
    (htype : codec.message typeName = .ok decl) (bytes : List UInt8) :
    codec.decode typeName bytes = codec.readMessage decl (Cursor.start bytes) := by
  simp only [decode, htype, readMessage]
  cases codec.newMessage decl <;> rfl

/-! ## Paths -/

/-- The slot with another path. -/
def Slot.withPath (slot : Slot) (path : String) : Slot :=
  { slot with path := path }

/-- The slots with the same path in each of them. -/
def Slots.withPath (slots : Slots) (path : String) : Slots :=
  fun number => (slots number).map (Slot.withPath · path)

/-- The record of the slot with another path. -/
def Occurrence.withPath (occurrence : Occurrence) (path : String) : Occurrence :=
  match occurrence with
  | .unknown => .unknown
  | .scalars slot repeated values => .scalars (slot.withPath path) repeated values
  | .body slot nested content => .body (slot.withPath path) nested content

/-- The form of a field that holds one value. -/
inductive Form.Single : Form → Prop
  | scalar {kind : FieldKind} (group : kind ≠ .group) (message : ∀ target, kind ≠ .message target) :
      Form.Single (.scalar kind false)
  | message (target : TypeRef) : Form.Single (.nested (.message target false))

theorem Form.single_ofKind {kind : FieldKind} (h : kind ≠ .group) :
    (Form.ofKind kind false).Single := by
  cases kind with
  | message target => exact .message target
  | group => exact absurd rfl h
  | _ =>
    refine .scalar h fun target heq => ?_
    cases heq

/-- The same result with one path everywhere and with the paths of the slots, which are seen at the
start of the text of a fault. -/
inductive Repathed (path : String) (slots : Slots) {α : Type} :
    Except Error α → Except Error α → Prop
  | same (result : Except Error α) : Repathed path slots result result
  | fault {number : UInt32} {slot : Slot} (known : slots number = some slot) (offset : Nat)
      (text : String) :
      Repathed path slots (.error (.wireFormat offset (path ++ text)))
        (.error (.wireFormat offset (slot.path ++ text)))

section Paths

variable {path : String} {slots : Slots} {number : UInt32} {slot : Slot}

theorem Repathed.map {α β : Type} {x y : Except Error α} (h : Repathed path slots x y)
    (f : α → β) : Repathed path slots (f <$> x) (f <$> y) := by
  cases h with
  | same => exact .same _
  | fault known offset text => exact .fault known offset text

theorem repathed_readScalar (codec : Codec) (path : String) (hslot : slots number = some slot)
    {kind : FieldKind} (hgroup : kind ≠ .group) (hmessage : ∀ target, kind ≠ .message target)
    (c : Cursor) :
    Repathed path slots (codec.readScalar kind path c) (codec.readScalar kind slot.path c) := by
  cases kind with
  | message target => exact absurd rfl (hmessage target)
  | group => exact absurd rfl hgroup
  | string =>
    simp only [readScalar]
    cases c.body with
    | error e => exact .same _
    | ok r =>
      simp only
      cases Text.utf8Decode r.1.bytes with
      | ok s => exact .same _
      | error fault =>
        simp only [String.append_assoc]
        exact .fault hslot _ _
  | _ => exact .same _

theorem repathed_wireMismatch {α : Type} (hslot : slots number = some slot)
    (expected actual : WireType) (c : Cursor) :
    Repathed (α := α) path slots (.error (wireMismatch path expected actual c))
      (.error (wireMismatch slot.path expected actual c)) := by
  simp only [wireMismatch, String.append_assoc]
  exact .fault hslot _ _

theorem repathed_readSlot (codec : Codec) (hslot : slots number = some slot)
    (hsingle : slot.form.Single) (wireType : WireType) (c : Cursor) :
    Repathed path slots (codec.readSlot (slot.withPath path) wireType c)
      ((fun r => (r.1.withPath path, r.2)) <$> codec.readSlot slot wireType c) := by
  have hform : (slot.withPath path).form = slot.form := rfl
  simp only [readSlot, hform]
  generalize slot.form = form at hsingle
  cases hsingle with
  | message target =>
    simp only
    split
    · cases c.body <;> exact .same _
    · exact repathed_wireMismatch hslot _ _ c
  | @scalar kind hgroup hmessage =>
    simp only [Bool.false_and, Bool.false_eq_true, if_false]
    split
    · have hread := (codec.repathed_readScalar path hslot hgroup hmessage c).map
        fun r => (Occurrence.scalars (slot.withPath path) false [r.1], r.2)
      cases hr : codec.readScalar kind slot.path c <;> rw [hr] at hread <;> exact hread
    · exact repathed_wireMismatch hslot _ _ c

theorem repathed_readRecord (codec : Codec) (path : String)
    (hsingle : ∀ number slot, slots number = some slot → slot.form.Single) (c : Cursor) :
    Repathed path slots (codec.readRecord (slots.withPath path) c)
      ((fun r => (r.1.withPath path, r.2)) <$> codec.readRecord slots c) := by
  simp only [readRecord]
  cases c.varint with
  | error e => exact .same _
  | ok r =>
    simp only
    cases splitTag r.1 with
    | error e => exact .same _
    | ok t =>
      simp only [Slots.withPath]
      cases hslot : slots t.1 with
      | some slot => exact repathed_readSlot codec hslot (hsingle _ _ hslot) t.2 r.2
      | none =>
        simp only [Option.map_none]
        cases skipUnknown t.1 t.2 c <;> exact .same _

/-- Only the entry of a map looks at the path of its slot. -/
theorem enter_withPath
    (hsingle : ∀ number slot, slots number = some slot → slot.form.Single)
    {occurrence : Occurrence} (h : Reads codec slots occurrence) (m : Message) :
    codec.enter m (occurrence.withPath path) = codec.enter m occurrence := by
  cases h with
  | unknown => rfl
  | scalars => rfl
  | @body number slot nested content hslot hform =>
    have hone := hsingle number slot hslot
    rw [hform] at hone
    cases hone with
    | message target => rfl

/-- A path is seen in the text of a fault only. -/
theorem repathed_decodeInto (codec : Codec) (path : String)
    (hsingle : ∀ number slot, slots number = some slot → slot.form.Single) (c : Cursor)
    (m : Message) :
    Repathed path slots (codec.decodeInto (slots.withPath path) c m)
      (codec.decodeInto slots c m) := by
  induction hn : c.size using Nat.strongRecOn generalizing c m with
  | _ n ih =>
    subst hn
    by_cases hb : c.bytes = []
    · rw [decodeInto_nil codec _ m hb, decodeInto_nil codec slots m hb]
      exact .same _
    · rw [decodeInto_eq codec _ m hb, decodeInto_eq codec slots m hb]
      have hrecord := codec.repathed_readRecord path hsingle c
      generalize codec.readRecord (slots.withPath path) c = result at hrecord
      cases hr : codec.readRecord slots c with
      | error e =>
        rw [hr] at hrecord
        cases hrecord with
        | same => exact .same (.error e)
        | fault known offset text => exact .fault known offset text
      | ok r =>
        obtain ⟨occurrence, rest⟩ := r
        rw [hr] at hrecord
        cases hrecord with
        | same =>
          simp only [Functor.map, Except.map, enter_withPath hsingle (reads_of_readRecord hr)]
          cases codec.enter m occurrence with
          | error e => exact .same _
          | ok next => exact ih rest.size (readRecord_moved hr).1.size_lt rest next rfl

end Paths

/-! ## Absent properties -/

/-- The message that another one is once the properties that are absent there have been given. -/
def Filled (initial : String → Option Value) (m m' : Message) : Prop :=
  ∀ name, m.get? name = (m'.get? name).or (initial name)

/-- Fields that can be given: each holds one value and has no rivals, and what a message is read
into is a new message of its type. -/
structure Slots.Given (codec : Codec) (slots : Slots) (initial : String → Option Value) : Prop where
  single : ∀ number slot, slots number = some slot → slot.form.Single
  unrivalled : ∀ number slot, slots number = some slot → slot.rivals = []
  message : ∀ number slot target, slots number = some slot →
    slot.form = .nested (.message target false) →
      ∃ m, codec.create target.fqName = .ok m ∧ initial slot.name = some (.message m)

/-- The same fault, or a result that is the other one filled in. -/
inductive Alongside (initial : String → Option Value) :
    Except Error Message → Except Error Message → Prop
  | done {m m' : Message} (filled : Filled initial m m') : Alongside initial (.ok m) (.ok m')
  | fault (e : Error) : Alongside initial (.error e) (.error e)

section Absent

variable {slots : Slots} {initial : String → Option Value} {m m' : Message}

theorem Filled.store (h : Filled initial m m') {slot : Slot} (hrivals : slot.rivals = [])
    (value : Option Value) : Filled initial (slot.store m value) (slot.store m' value) := by
  intro name
  rw [Slot.get?_store_unrivalled hrivals, Slot.get?_store_unrivalled hrivals]
  split
  · rw [h name, Option.or_assoc]
  · exact h name

theorem Filled.update (h : Filled initial m m') {name : String} {value : Option Value}
    (hvalue : value = none ∨ value = m.get? name) : Filled initial m (m'.update name value) := by
  rcases hvalue with rfl | rfl
  · exact h
  · cases hx : m.get? name with
    | none => exact h
    | some x =>
      intro other
      rw [Message.update, Message.get?_set]
      split
      next heq => rw [← heq, hx, Option.some_or]
      · exact h other

/-- Reading into the new message of a type is reading into nothing. -/
theorem openNested_create {target : TypeRef} (h : codec.create target.fqName = .ok m)
    (path : String) :
    codec.openNested path (.message target false) (some (.message m)) =
      codec.openNested path (.message target false) none := by
  obtain ⟨decl, hdecl, hnew⟩ := Except.exists_of_bind h
  simp only [openNested, hdecl, hnew]
  rfl

/-- A record makes the same of an absent property and of the value that it is given. -/
theorem change_or (hslots : slots.Given codec initial) {occurrence : Occurrence} {slot : Slot}
    (hread : Reads codec slots occurrence) (hslot : occurrence.slot? = some slot)
    (old : Option Value) :
    codec.change occurrence (old.or (initial slot.name)) = codec.change occurrence old := by
  cases hread with
  | unknown => cases hslot
  | @scalars number s kind repeated values hknown hform _ hcount =>
    have hsingle := hslots.single number s hknown
    rw [hform] at hsingle
    cases hsingle
    obtain ⟨v, rfl⟩ := hcount.resolve_left Bool.false_ne_true
    rfl
  | @body number s nested content hknown hform =>
    cases hslot
    have hsingle := hslots.single number slot hknown
    rw [hform] at hsingle
    cases hsingle with
    | message target =>
      obtain ⟨created, hcreate, hinitial⟩ := hslots.message number slot target hknown hform
      cases old with
      | some v => rfl
      | none =>
        simp only [Option.none_or, hinitial, change, openNested_create hcreate]
        rfl

theorem alongside_enter (hslots : slots.Given codec initial) (h : Filled initial m m')
    {occurrence : Occurrence} (hread : Reads codec slots occurrence) :
    Alongside initial (codec.enter m occurrence) (codec.enter m' occurrence) := by
  cases hslot : occurrence.slot? with
  | none =>
    rw [enter_of_slot?_eq_none hslot, enter_of_slot?_eq_none hslot]
    exact .done h
  | some slot =>
    have hrivals : slot.rivals = [] := by
      cases hread <;> cases hslot
      · exact hslots.unrivalled _ _ ‹_›
      · exact hslots.unrivalled _ _ ‹_›
    rw [enter_eq_change hslot, enter_eq_change hslot, h slot.name, change_or hslots hread hslot]
    cases codec.change occurrence (m'.get? slot.name) with
    | error e => exact .fault e
    | ok value => exact .done (h.store hrivals value)

/-- A run into a message that is filled in has the result that is filled in. -/
theorem alongside_decodeInto (hslots : slots.Given codec initial) (c : Cursor)
    (h : Filled initial m m') :
    Alongside initial (codec.decodeInto slots c m) (codec.decodeInto slots c m') := by
  induction hn : c.size using Nat.strongRecOn generalizing c m m' with
  | _ n ih =>
    subst hn
    by_cases hb : c.bytes = []
    · rw [decodeInto_nil codec slots m hb, decodeInto_nil codec slots m' hb]
      exact .done h
    · rw [decodeInto_eq codec slots m hb, decodeInto_eq codec slots m' hb]
      cases hr : codec.readRecord slots c with
      | error e => exact .fault e
      | ok r =>
        obtain ⟨occurrence, rest⟩ := r
        have henter := alongside_enter hslots h (reads_of_readRecord hr)
        simp only
        generalize codec.enter m occurrence = result, codec.enter m' occurrence = result' at henter
        cases henter with
        | done filled => exact ih rest.size (readRecord_moved hr).1.size_lt rest filled rfl
        | fault e => exact .fault e

end Absent

/-! ## What an entry starts with -/

/-- A field that holds one value and can be absent starts absent; any other starts as in an
entry. -/
theorem defaultValue_ofEntry (codec : Codec) {info : FieldInfo} (hf : (Field.plain info).Formed)
    (hsingle : info.repeated = false) :
    codec.defaultValue info = .ok none ∨
      codec.defaultValue info = codec.defaultValue info.ofEntry := by
  cases hf with | plain _ _ hinitial => ?_
  rw [hsingle] at hinitial
  cases hoptional : info.optional with
  | true =>
    rw [hoptional] at hinitial
    left
    simp only [defaultValue, hinitial]
    rfl
  | false =>
    rw [hoptional] at hinitial
    right
    simp only [defaultValue, hinitial, FieldInfo.ofEntry]
    rfl

theorem defaultValue_key {info : FieldInfo} (hkey : info.kind.isMapKey = true) {k : Value}
    (hk : zeroOf info.kind = .ok k) : codec.defaultValue info.ofEntry = .ok (some k) := by
  simp only [defaultValue, FieldInfo.ofEntry]
  cases hkind : info.kind with
  | double | float | bytes | enum target | message target | group =>
    rw [hkind] at hkey
    cases hkey
  | _ =>
    rw [hkind] at hk
    simp only [FieldKind.initialValue, hk]
    rfl

theorem startingValue_of_defaultValue {info : FieldInfo} {v : Value}
    (h : codec.defaultValue info.ofEntry = .ok (some v)) (path : String) :
    codec.startingValue path info.ofEntry = .ok v := by
  simp only [startingValue, h, bind, Except.bind]
  split
  next _ target hkind =>
    have hunset : info.ofEntry.initial = .unset := by
      show info.kind.initialValue = .unset
      rw [show info.kind = .message target from hkind]
      rfl
    simp only [defaultValue, hunset] at h
    cases h
  next heq _ =>
    cases heq
    rfl
  next heq _ => cases heq

theorem create_of_startingValue {info : FieldInfo} {target : TypeRef}
    (hkind : info.kind = .message target) {path : String} {v : Value}
    (h : codec.startingValue path info = .ok v) :
    ∃ m, codec.create target.fqName = .ok m ∧ v = .message m := by
  obtain ⟨_, -, h⟩ := Except.exists_of_bind h
  simp only [hkind] at h
  obtain ⟨m, hm, rfl⟩ := exists_of_map_eq_ok h
  exact ⟨m, hm, rfl⟩

/-! ## Entries and their messages -/

section Entry

variable {entry : MessageDecl} {key value : FieldInfo} (hentry : entry.IsEntry key value)
  {path : String} {k v : Value}

include hentry

theorem siblings_isEntry (honeof : key.oneof.isSome = true → key.oneof ≠ value.oneof) :
    entry.siblings (.plain key) = [] ∧ entry.siblings (.plain value) = [] := by
  constructor
  · refine MessageDecl.siblings_eq_nil fun other hmem hsome hsame => ?_
    rw [hentry.fields] at hmem
    rcases List.mem_pair.1 hmem with rfl | rfl
    · rfl
    · exact absurd hsame.symm (honeof hsome)
  · refine MessageDecl.siblings_eq_nil fun other hmem hsome hsame => ?_
    rw [hentry.fields] at hmem
    rcases List.mem_pair.1 hmem with rfl | rfl
    · exact absurd hsame (honeof (hsame ▸ hsome))
    · rfl

/-- The slots of the message of an entry. -/
theorem slotsOf_isEntry (honeof : key.oneof.isSome = true → key.oneof ≠ value.oneof)
    (number : UInt32) :
    slotsOf entry number =
      if number = 1 then some ⟨keyName, fieldPath entry key, .ofKind key.kind false, []⟩
      else if number = 2 then some ⟨valueName, fieldPath entry value, .ofKind value.kind false, []⟩
      else none := by
  obtain ⟨hsiblings, hsiblings'⟩ := siblings_isEntry hentry honeof
  have hkey : slotOf entry (.plain key) =
      ⟨keyName, fieldPath entry key, .ofKind key.kind false, []⟩ := by
    rw [slotOf, hsiblings, ← hentry.nameKey, ← hentry.singleKey]
    rfl
  have hvalue : slotOf entry (.plain value) =
      ⟨valueName, fieldPath entry value, .ofKind value.kind false, []⟩ := by
    rw [slotOf, hsiblings', ← hentry.nameValue, ← hentry.singleValue]
    rfl
  have hfields : slotsOf entry number =
      ([Field.plain key, .plain value].find? (·.info.number = number)).map (slotOf entry) := by
    rw [← hentry.fields]
    rfl
  have hone : (Field.plain key).info.number = 1 := hentry.numberKey
  have htwo : (Field.plain value).info.number = 2 := hentry.numberValue
  rw [hfields, List.find?_cons, List.find?_cons, List.find?_nil, hone, htwo]
  by_cases h1 : number = 1
  · subst h1
    exact congrArg some hkey
  · by_cases h2 : number = 2
    · subst h2
      exact congrArg some hvalue
    · simp [h1, h2, Ne.symm h1, Ne.symm h2]

/-- The slots of an entry are those of its message, with the path of the map. -/
theorem withPath_slotsOf (honeof : key.oneof.isSome = true → key.oneof ≠ value.oneof)
    (path : String) : (slotsOf entry).withPath path = entrySlots path key value := by
  funext number
  rw [Slots.withPath, slotsOf_isEntry hentry honeof, entrySlots]
  split
  · rfl
  · split <;> rfl

theorem given_slotsOf (honeof : key.oneof.isSome = true → key.oneof ≠ value.oneof)
    (hv : codec.startingValue path value.ofEntry = .ok v) :
    (slotsOf entry).Given codec (startingEntry k v).get? := by
  have hcases {number : UInt32} {slot : Slot} (h : slotsOf entry number = some slot) :
      slot = ⟨keyName, fieldPath entry key, .ofKind key.kind false, []⟩ ∨
        slot = ⟨valueName, fieldPath entry value, .ofKind value.kind false, []⟩ := by
    rw [slotsOf_isEntry hentry honeof] at h
    split at h
    · exact .inl (Option.some.inj h).symm
    · split at h
      · exact .inr (Option.some.inj h).symm
      · cases h
  refine ⟨fun number slot h => ?_, fun number slot h => ?_, fun number slot target h hform => ?_⟩
  · rcases hcases h with rfl | rfl
    · exact Form.single_ofKind hentry.formedKey.kind_ne_group
    · exact Form.single_ofKind hentry.formedValue.kind_ne_group
  · rcases hcases h with rfl | rfl <;> rfl
  · rcases hcases h with rfl | rfl
    · -- a key is no message
      obtain ⟨_, hkind, -⟩ := Form.ofKind_eq_nested hform
      have hkey := hentry.isMapKey
      rw [hkind] at hkey
      cases hkey
    · obtain ⟨_, hkind, hnested⟩ := Form.ofKind_eq_nested hform
      cases hnested
      have hkind : value.ofEntry.kind = .message target := hkind
      obtain ⟨m, hm, rfl⟩ := create_of_startingValue hkind hv
      exact ⟨m, hm, rfl⟩

/-- The key of the message of an entry starts absent or at its zero. -/
theorem defaultValue_isEntry_key (codec : Codec) (hk : zeroOf key.kind = .ok k) :
    codec.defaultValue key = .ok none ∨ codec.defaultValue key = .ok (some k) := by
  rw [← defaultValue_key hentry.isMapKey hk]
  exact codec.defaultValue_ofEntry hentry.formedKey hentry.singleKey

theorem newMessage_isEntry :
    codec.newMessage entry = do
      let a ← codec.defaultValue key
      let b ← codec.defaultValue value
      return ((Message.empty entry.fqName).update keyName a).update valueName b := by
  have hkeyInfo : (Field.plain key).info = key := rfl
  have hvalueInfo : (Field.plain value).info = value := rfl
  simp only [newMessage, hentry.fields, setDefaults, hkeyInfo, hvalueInfo, hentry.nameKey,
    hentry.nameValue]
  cases codec.defaultValue key with
  | error e => rfl
  | ok a => cases codec.defaultValue value <;> rfl

/-- What a new message of an entry holds, the entry starts with. -/
theorem filled_newMessage (hk : zeroOf key.kind = .ok k)
    (hv : codec.startingValue path value.ofEntry = .ok v) {m : Message}
    (hnew : codec.newMessage entry = .ok m) :
    Filled (startingEntry k v).get? (startingEntry k v) m := by
  rw [newMessage_isEntry hentry] at hnew
  obtain ⟨a, ha, hnew⟩ := Except.exists_of_bind hnew
  obtain ⟨b, hb, hnew⟩ := Except.exists_of_bind hnew
  cases hnew
  have hempty : Filled (startingEntry k v).get? (startingEntry k v) (.empty entry.fqName) :=
    fun _ => rfl
  have hkey : a = none ∨ a = (startingEntry k v).get? keyName := by
    rcases defaultValue_isEntry_key hentry codec hk with h | h
    · exact .inl (Except.ok.inj (ha.symm.trans h))
    · exact .inr (Except.ok.inj (ha.symm.trans h))
  have hvalue : b = none ∨ b = (startingEntry k v).get? valueName := by
    rcases codec.defaultValue_ofEntry hentry.formedValue hentry.singleValue with h | h
    · exact .inl (Except.ok.inj (hb.symm.trans h))
    · cases b with
      | none => exact .inl rfl
      | some x =>
        rw [startingValue_of_defaultValue (h.symm.trans hb)] at hv
        cases hv
        exact .inr rfl
  exact (hempty.update hkey).update hvalue

/-- An entry whose message cannot be made fails as the message does. -/
theorem readEntry_eq_error (hk : zeroOf key.kind = .ok k) {e : Error}
    (hnew : codec.newMessage entry = .error e) (c : Cursor) :
    codec.readEntry path key.ofEntry value.ofEntry c = .error e := by
  obtain ⟨a, ha⟩ : ∃ a, codec.defaultValue key = .ok a := by
    rcases defaultValue_isEntry_key hentry codec hk with h | h
    · exact ⟨none, h⟩
    · exact ⟨some k, h⟩
  have hvalue : codec.defaultValue value.ofEntry = .error e := by
    rw [newMessage_isEntry hentry, ha] at hnew
    rcases codec.defaultValue_ofEntry hentry.formedValue hentry.singleValue with h | h
    · rw [h] at hnew
      cases hnew
    · rw [← h]
      cases hb : codec.defaultValue value with
      | error e' =>
        rw [hb] at hnew
        cases hnew
        rfl
      | ok b =>
        rw [hb] at hnew
        cases hnew
  have hk : zeroOf key.ofEntry.kind = .ok k := hk
  simp only [readEntry, startingValue, hk, hvalue]
  rfl

end Entry

/-! ## The same results -/

/-- The same fault, except that one text starts with the path of a map and the other one with that of
a field of its entries. -/
inductive SameFault (path : String) (entry : MessageDecl) : Error → Error → Prop
  | refl (e : Error) : SameFault path entry e e
  | path {field : Field} (mem : field ∈ entry.fields) (offset : Nat) (text : String) :
      SameFault path entry (.wireFormat offset (path ++ text))
        (.wireFormat offset (fieldPath entry field.info ++ text))

/-- What an entry is read as, given what its message is read as. -/
inductive EntryAgrees (codec : Codec) (path : String) (entry : MessageDecl)
    (key value : FieldInfo) : Except Error (String × Value) → Except Error Message → Prop
  | done {k v : Value} (zero : zeroOf key.kind = .ok k)
      (start : codec.startingValue path value = .ok v) (m : Message) :
      EntryAgrees codec path entry key value
        (.ok (textOfKey ((m.get? key.name).getD k), (m.get? value.name).getD v)) (.ok m)
  | fault {e e' : Error} (same : SameFault path entry e e') :
      EntryAgrees codec path entry key value (.error e) (.error e')

theorem entryAgrees_readEntry {entry : MessageDecl} {key value : FieldInfo}
    (hentry : entry.IsEntry key value)
    (honeof : key.oneof.isSome = true → key.oneof ≠ value.oneof) {path : String}
    (hstart : (∃ m, codec.newMessage entry = .ok m) →
      ∃ v, codec.startingValue path value.ofEntry = .ok v) (c : Cursor) :
    EntryAgrees codec path entry key.ofEntry value.ofEntry
      (codec.readEntry path key.ofEntry value.ofEntry c) (codec.readMessage entry c) := by
  obtain ⟨k, hk, -⟩ := exists_zeroOf_key codec EnumDecl.Canonical hentry.isMapKey
  cases hnew : codec.newMessage entry with
  | error e =>
    rw [readEntry_eq_error hentry hk hnew, readMessage, hnew]
    exact .fault (.refl e)
  | ok start =>
    obtain ⟨v, hv⟩ := hstart ⟨start, hnew⟩
    have hgiven := given_slotsOf (k := k) hentry honeof hv
    have hpaths := codec.repathed_decodeInto path hgiven.single c (startingEntry k v)
    have halong := alongside_decodeInto hgiven c (filled_newMessage hentry hk hv hnew)
    have hslots : entrySlots path key.ofEntry value.ofEntry = (slotsOf entry).withPath path :=
      (withPath_slotsOf hentry honeof path).symm
    have hk : zeroOf key.ofEntry.kind = .ok k := hk
    simp only [readEntry, readMessage, hk, hv, hnew, hslots, bind, Except.bind, pure, Except.pure]
    generalize codec.decodeInto ((slotsOf entry).withPath path) c (startingEntry k v) = result
      at hpaths
    generalize codec.decodeInto (slotsOf entry) c (startingEntry k v) = middle at hpaths halong
    generalize codec.decodeInto (slotsOf entry) c start = result' at halong
    cases hpaths with
    | fault known offset text =>
      obtain ⟨field, hf, -, rfl⟩ := exists_numbered_of_slotsOf known
      cases halong
      exact .fault (.path hf offset text)
    | same =>
      cases halong with
      | fault e => exact .fault (.refl e)
      | @done m m' filled =>
        have hkey : m.get? keyName = some ((m'.get? key.name).getD k) := by
          rw [filled keyName, hentry.nameKey]
          exact Option.or_some
        have hvalue : m.get? valueName = some ((m'.get? value.name).getD v) := by
          rw [filled valueName, hentry.nameValue]
          exact Option.or_some
        simp only [hkey, hvalue, Option.map_some, Option.getD_some]
        exact .done hk hv m'

/-- The declaration of the entries of a map of plots, with values of the type of a field. -/
def plotEntryFile (name : String) (value : FieldDescriptor) (oneofIndex : Option Int32)
    (oneofs : List String) : MessageDescriptor :=
  { name
    fields := [
      { name := "key", number := 1, type := .sint32, oneofIndex },
      { value with name := "value", number := 2, oneofIndex }]
    oneofs
    isMapEntry := true }

/-- The files that declare plots: a map with a key and a value that are members of one oneof, a map
to a message of another file, and a map to plots. -/
def plotFiles : List FileDescriptor :=
  [{ name := some "seed.proto", package := "seed", dialect := "proto3"
     messages := [{ name := "Seed" }] },
   { name := some "grove.proto"
     package := "grove"
     dialect := "proto3"
     dependencies := ["seed.proto"]
     messages := [
       { name := "Plot"
         fields := [
           { name := "tally", number := 1, label := .repeated, type := .message,
             typeName := ".grove.Plot.TallyEntry" },
           { name := "seeds", number := 2, label := .repeated, type := .message,
             typeName := ".grove.Plot.SeedsEntry" },
           { name := "parts", number := 3, label := .repeated, type := .message,
             typeName := ".grove.Plot.PartsEntry" }]
         nested := [
           plotEntryFile "TallyEntry" { type := .sint32 } (some 0) ["pair"],
           plotEntryFile "SeedsEntry" { type := .message, typeName := ".seed.Seed" } none [],
           plotEntryFile "PartsEntry" { type := .message, typeName := ".grove.Plot" } none []] }] }]

/-- The key of the entries of a plot. -/
def plotKey (oneof : Option String) : FieldInfo := groveField "key" "key" 1 .sint32 false oneof

/-- The value of the entries of a plot. -/
def plotValue (kind : FieldKind) (oneof : Option String) : FieldInfo :=
  groveField "value" "value" 2 kind false oneof

/-- The entries of a map of a plot. -/
def plotEntry (name : String) (kind : FieldKind) (oneof : Option String) : MessageDecl :=
  { name, fqName := "grove.Plot." ++ name, shortName := "Plot." ++ name, isMapEntry := true
    fields := [.plain (plotKey oneof), .plain (plotValue kind oneof)]
    comment := none }

/-- A map of a plot. -/
def plotMap (name : String) (number : UInt32) (entry : String) (kind : FieldKind)
    (oneof : Option String) : Field :=
  .map { groveField name name number (.message (groveRef ("Plot." ++ entry) .message)) true none
      with repeated := false, initial := .emptyMap }
    (.plain (plotKey oneof).ofEntry) (.plain (plotValue kind oneof).ofEntry)

/-- Seeds, which another file declares. -/
def seedKind : FieldKind := .message ⟨"seed.Seed", "seed.proto", "seed", "Seed", .message, "Seed"⟩

/-- Plots. -/
def plotKind : FieldKind := .message (groveRef "Plot" .message)

/-- The codec of the file of plots, which does not know seeds. -/
def plots : Codec :=
  { messages := [
      plotEntry "PartsEntry" plotKind none, plotEntry "SeedsEntry" seedKind none,
      plotEntry "TallyEntry" .sint32 (some "pair"),
      { name := "Plot", fqName := "grove.Plot", shortName := "Plot", isMapEntry := false
        fields := [
          plotMap "tally" 1 "TallyEntry" .sint32 (some "pair"),
          plotMap "seeds" 2 "SeedsEntry" seedKind none, plotMap "parts" 3 "PartsEntry" plotKind none]
        comment := none }]
    enums := [], emitDefaults := false, protoNames := false }

theorem resolved_plots : plots.Resolved :=
  resolved_of_build plotFiles ["grove.proto"] .javaScript {} (by cbv)

/-- A plot in which all maps are empty. -/
def emptyPlot : Message :=
  ⟨"grove.Plot", [("parts", .map []), ("seeds", .map []), ("tally", .map [])]⟩

/-- Where the parts of a plot go. -/
def partsSlot : Slot :=
  ⟨"parts", "grove.Plot.parts",
    .nested (.entry (plotKey none).ofEntry (plotValue plotKind none).ofEntry), []⟩

end Codec
end ProtoStub
