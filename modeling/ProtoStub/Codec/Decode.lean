import ProtoStub.Codec.Basic
import ProtoStub.Text.Utf8
import ProtoStub.Wire.Record
import ProtoStub.Wire.Scalar
import ProtoStub.Wire.ZigZag

/-
  Reading messages from bytes. Records are taken one after the other: a record with a
  known number changes the property of its field and unsets the other members of its
  oneof, any other record is passed over. A single message that occurs again is read into
  the one that is there. The entry of a map is read like a message with the two fields
  `key` and `value`.
-/

namespace ProtoStub.Codec

open Wire

/-- A message or a map entry inside the record of a field. -/
inductive Nested where
  | message (target : TypeRef) (repeated : Bool)
  | entry (key value : FieldInfo)
  deriving DecidableEq, Repr

/-- What the records of a field hold. -/
inductive Form where
  | scalar (kind : FieldKind) (repeated : Bool)
  | nested (nested : Nested)
  deriving DecidableEq, Repr

/-- Where the records of a field go. -/
structure Slot where
  /-- The property. -/
  name : String
  /-- How diagnostics name the field. -/
  path : String
  form : Form
  /-- The properties of the other members of the field's oneof. -/
  rivals : List String
  deriving DecidableEq, Repr

/-- The slot of each field number that is known. -/
abbrev Slots : Type := UInt32 → Option Slot

/-- The form of a kind. -/
def Form.ofKind (kind : FieldKind) (repeated : Bool) : Form :=
  match kind with
  | .message target => .nested (.message target repeated)
  | kind => .scalar kind repeated

/-- The form of a field. -/
def Form.ofField : Field → Form
  | .map _ key value => .nested (.entry key.info value.info)
  | .plain info => .ofKind info.kind info.repeated

/-- The slots of a message. -/
def slotsOf (decl : MessageDecl) : Slots := fun number =>
  (decl.fieldByNumber? number).map fun field =>
    { name := field.info.name
      path := fieldPath decl field.info
      form := .ofField field
      rivals := (decl.siblings field).map (·.info.name) }

/-- The property that holds the key of a map entry. -/
def keyName : String := "key"

/-- The property that holds the value of a map entry. -/
def valueName : String := "value"

/-- The slots of a map entry. -/
def entrySlots (path : String) (key value : FieldInfo) : Slots := fun number =>
  if number = 1 then some ⟨keyName, path, .ofKind key.kind false, []⟩
  else if number = 2 then some ⟨valueName, path, .ofKind value.kind false, []⟩
  else none

/-- Refuses a record of another wire type than the one that is expected. -/
def wireMismatch (path : String) (expected actual : WireType) (c : Cursor) : Error :=
  .wireFormat c.offset
    (path ++ " expects wire type " ++ expected.name ++ ", got " ++ actual.name)

/-- Reads a single value that is no message. -/
def readScalar (codec : Codec) (kind : FieldKind) (path : String) (c : Cursor) :
    Except Error (Value × Cursor) :=
  match kind with
  | .int32 => (fun r => (.int32 (Int32.ofInt r.1.toNat), r.2)) <$> c.varint
  | .int64 => (fun r => (.int64 (Int64.ofInt r.1.toNat), r.2)) <$> c.varint
  | .uint32 => (fun r => (.uint32 (UInt32.ofNat r.1.toNat), r.2)) <$> c.varint
  | .uint64 => (fun r => (.uint64 r.1, r.2)) <$> c.varint
  | .sint32 => (fun r => (.int32 (unzigzag32 r.1), r.2)) <$> c.varint
  | .sint64 => (fun r => (.int64 (unzigzag64 r.1), r.2)) <$> c.varint
  | .bool => (fun r => (.bool (r.1 ≠ 0), r.2)) <$> c.varint
  | .enum target =>
    match c.varint with
    | .error e => .error e
    | .ok (v, rest) =>
      (fun e => (.enum e, rest)) <$>
        codec.enumOfNumber target.fqName (Int32.ofInt v.toNat)
  | .double => (fun r => (.double ⟨r.1⟩, r.2)) <$> c.word64
  | .fixed64 => (fun r => (.uint64 r.1, r.2)) <$> c.word64
  | .sfixed64 => (fun r => (.int64 (Int64.ofInt r.1.toNat), r.2)) <$> c.word64
  | .float => (fun r => (.float ⟨r.1⟩, r.2)) <$> c.word32
  | .fixed32 => (fun r => (.uint32 r.1, r.2)) <$> c.word32
  | .sfixed32 => (fun r => (.int32 (Int32.ofInt r.1.toNat), r.2)) <$> c.word32
  | .string =>
    match c.body with
    | .error e => .error e
    | .ok (body, rest) =>
      match Text.utf8Decode body.bytes with
      | .error fault =>
        .error (.wireFormat c.offset (path ++ ": invalid UTF-8: " ++ fault.message))
      | .ok s => .ok (.string s, rest)
  | .bytes => (fun r => (.bytes r.1.bytes, r.2)) <$> c.body
  | .message _ | .group => .error (.internal (path ++ " is not a scalar field"))

/-- Reading a value moves the cursor. -/
theorem readScalar_moved {codec : Codec} {kind : FieldKind} {path : String} {c rest : Cursor}
    {v : Value} (h : codec.readScalar kind path c = .ok (v, rest)) : Cursor.Moved c rest := by
  unfold readScalar at h
  split at h
  case h_8 =>
    split at h
    · simp at h
    next hv =>
      obtain ⟨e, _, he⟩ := exists_of_map_eq_ok h
      exact (Prod.mk.inj he).2 ▸ Cursor.moved_of_varint hv
  case h_15 =>
    split at h
    · simp at h
    next hb =>
      split at h
      · simp at h
      · exact (Prod.mk.inj (Except.ok.inj h)).2 ▸ (Cursor.moved_of_body hb).1
  case h_16 =>
    obtain ⟨r, hb, hr⟩ := exists_of_map_eq_ok h
    exact (Prod.mk.inj hr).2 ▸ (Cursor.moved_of_body hb).1
  case h_9 | h_10 | h_11 =>
    obtain ⟨r, hw, hr⟩ := exists_of_map_eq_ok h
    exact (Prod.mk.inj hr).2 ▸ Cursor.moved_of_word64 hw
  case h_12 | h_13 | h_14 =>
    obtain ⟨r, hw, hr⟩ := exists_of_map_eq_ok h
    exact (Prod.mk.inj hr).2 ▸ Cursor.moved_of_word32 hw
  case h_17 | h_18 => simp at h
  all_goals
    obtain ⟨r, hv, hr⟩ := exists_of_map_eq_ok h
    exact (Prod.mk.inj hr).2 ▸ Cursor.moved_of_varint hv

/-- Reads values that fill a body. -/
def readPacked (codec : Codec) (kind : FieldKind) (path : String) (c : Cursor) :
    Except Error (List Value) :=
  if c.bytes.isEmpty then .ok []
  else
    match h : codec.readScalar kind path c with
    | .error e => .error e
    | .ok (v, rest) =>
      have : rest.size < c.size := (readScalar_moved h).size_lt
      (v :: ·) <$> codec.readPacked kind path rest
termination_by c.size

/-- A record: one to pass over, values of a field, or a body that holds something nested. -/
inductive Occurrence where
  | unknown
  | scalars (slot : Slot) (repeated : Bool) (values : List Value)
  | body (slot : Slot) (nested : Nested) (content : Cursor)

/-- Reads the rest of a record of a known field, after its tag. A repeated field takes
several values in one record as well as one. -/
def readSlot (codec : Codec) (slot : Slot) (wireType : WireType) (c : Cursor) :
    Except Error (Occurrence × Cursor) :=
  match slot.form with
  | .nested nested =>
    if wireType = .len then (fun r => (.body slot nested r.1, r.2)) <$> c.body
    else .error (wireMismatch slot.path .len wireType c)
  | .scalar kind repeated =>
    if repeated && kind.isPackable && wireType = .len then
      match c.body with
      | .error e => .error e
      | .ok (body, rest) =>
        (fun values => (.scalars slot repeated values, rest)) <$>
          codec.readPacked kind slot.path body
    else if wireType = kind.wireType then
      (fun r => (.scalars slot repeated [r.1], r.2)) <$> codec.readScalar kind slot.path c
    else .error (wireMismatch slot.path kind.wireType wireType c)

/-- Reads a record. -/
def readRecord (codec : Codec) (slots : Slots) (c : Cursor) :
    Except Error (Occurrence × Cursor) :=
  match c.varint with
  | .error e => .error e
  | .ok (tag, rest) =>
    match splitTag tag with
    | .error e => .error e
    | .ok (number, wireType) =>
      match slots number with
      | none => (fun rest => (.unknown, rest)) <$> skipUnknown number wireType c
      | some slot => codec.readSlot slot wireType rest

/-- A body that a record holds is one that was read. -/
def Occurrence.Shorter (occurrence : Occurrence) (c : Cursor) : Prop :=
  match occurrence with
  | .body _ _ content => content.size < c.size
  | _ => True

/-- Reading the rest of a record moves the cursor, and a nested body is shorter. -/
theorem readSlot_moved {codec : Codec} {slot : Slot} {wireType : WireType} {c rest : Cursor}
    {occurrence : Occurrence} (h : codec.readSlot slot wireType c = .ok (occurrence, rest)) :
    Cursor.Moved c rest ∧ occurrence.Shorter c := by
  unfold readSlot at h
  split at h
  · split at h
    · obtain ⟨r, hb, hr⟩ := exists_of_map_eq_ok h
      obtain ⟨rfl, rfl⟩ := Prod.mk.inj hr
      exact Cursor.moved_of_body hb
    · simp at h
  · split at h
    · split at h
      · simp at h
      next hb =>
        obtain ⟨values, _, hr⟩ := exists_of_map_eq_ok h
        obtain ⟨rfl, rfl⟩ := Prod.mk.inj hr
        exact ⟨(Cursor.moved_of_body hb).1, trivial⟩
    · split at h
      · obtain ⟨r, hs, hr⟩ := exists_of_map_eq_ok h
        obtain ⟨rfl, rfl⟩ := Prod.mk.inj hr
        exact ⟨readScalar_moved hs, trivial⟩
      · simp at h

/-- Reading a record moves the cursor, and a nested body is shorter. -/
theorem readRecord_moved {codec : Codec} {slots : Slots} {c rest : Cursor}
    {occurrence : Occurrence} (h : codec.readRecord slots c = .ok (occurrence, rest)) :
    Cursor.Moved c rest ∧ occurrence.Shorter c := by
  unfold readRecord at h
  split at h
  · simp at h
  next tag after hv =>
    have hafter := Cursor.moved_of_varint hv
    split at h
    · simp at h
    next number wireType _ =>
      split at h
      · obtain ⟨after, hs, hr⟩ := exists_of_map_eq_ok h
        obtain ⟨rfl, rfl⟩ := Prod.mk.inj hr
        exact ⟨skipUnknown_advance hs, trivial⟩
      · obtain ⟨hmoved, hshort⟩ := readSlot_moved h
        refine ⟨hafter.trans hmoved, ?_⟩
        have := hafter.size_lt
        cases occurrence with
        | body _ _ content =>
          simp only [Occurrence.Shorter] at hshort ⊢
          omega
        | _ => trivial

/-- The message into which a nested body is read, and its slots. What the property holds
already is kept if it is a single message. -/
def openNested (codec : Codec) (path : String) (nested : Nested) (old : Option Value) :
    Except Error (Slots × Message) :=
  match nested with
  | .message target repeated =>
    match codec.message target.fqName with
    | .error e => .error e
    | .ok decl =>
      match repeated, old with
      | false, some (.message m) => .ok (slotsOf decl, m)
      | _, _ => (fun m => (slotsOf decl, m)) <$> codec.newMessage decl
  | .entry key value => do
    let k ← zeroOf key.kind
    let initial ← codec.defaultValue value
    let v ←
      match value.kind, initial with
      | .message target, _ => .message <$> codec.create target.fqName
      | _, some v => .ok v
      | _, none => .error (.internal (path ++ ": map value has no default"))
    return (entrySlots path key value, ⟨"", [(keyName, k), (valueName, v)]⟩)

/-- What the property of a nested body holds once the body is read. -/
def Nested.close (nested : Nested) (old : Option Value) (m : Message) : Value :=
  match nested with
  | .message _ false => .message m
  | .message _ true => Value.pushItem old (.message m)
  | .entry _ _ =>
    Value.putEntry old (((m.get? keyName).map textOfKey).getD "") ((m.get? valueName).getD default)

/-- What the property of a field holds after values are read. -/
def absorb (repeated : Bool) (old : Option Value) (values : List Value) : Option Value :=
  if repeated then Value.pushItems old values else values.getLast?.or old

/-- Changes the property of a slot and unsets its rivals. -/
def Slot.store (slot : Slot) (m : Message) (value : Option Value) : Message :=
  slot.rivals.foldl Message.unset (m.update slot.name value)

/-- Reads records into a message until the bytes end. -/
def decodeInto (codec : Codec) (slots : Slots) (c : Cursor) (m : Message) :
    Except Error Message :=
  if c.bytes.isEmpty then .ok m
  else
    match h : codec.readRecord slots c with
    | .error e => .error e
    | .ok (.unknown, rest) =>
      have : rest.size < c.size := (readRecord_moved h).1.size_lt
      codec.decodeInto slots rest m
    | .ok (.scalars slot repeated values, rest) =>
      have : rest.size < c.size := (readRecord_moved h).1.size_lt
      codec.decodeInto slots rest
        (slot.store m (absorb repeated (m.get? slot.name) values))
    | .ok (.body slot nested body, rest) =>
      have : rest.size < c.size := (readRecord_moved h).1.size_lt
      have : body.size < c.size := (readRecord_moved h).2
      match codec.openNested slot.path nested (m.get? slot.name) with
      | .error e => .error e
      | .ok (inner, start) =>
        match codec.decodeInto inner body start with
        | .error e => .error e
        | .ok done =>
          codec.decodeInto slots rest
            (slot.store m (some (nested.close (m.get? slot.name) done)))
termination_by c.size

/-- Reads a message of a type. -/
def decode (codec : Codec) (typeName : String) (bytes : List UInt8) : Except Error Message :=
  match codec.message typeName with
  | .error e => .error e
  | .ok decl =>
    match codec.newMessage decl with
    | .error e => .error e
    | .ok start => codec.decodeInto (slotsOf decl) (Cursor.start bytes) start

end ProtoStub.Codec
