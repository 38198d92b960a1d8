import ProtoStub.Codec.Basic
import ProtoStub.Text.Utf8
import ProtoStub.Value.View
import ProtoStub.Wire.Scalar
import ProtoStub.Wire.ZigZag

/-
  Writing messages as bytes. Fields come in the order of their declaration. A field that
  cannot be absent is left out at its zero value; repeated scalars share one record where
  they can; a map is written as one message for each entry.
-/

namespace ProtoStub.Codec

open Wire

/-- The bytes of a single value that is no message. -/
def scalarBytes (codec : Codec) (value : Value) : Writer (List UInt8) := fun kind path =>
  match kind, value with
  | .double, .double x => .ok (littleEndian 8 x.bits.toNat)
  | .float, .float x => .ok (littleEndian 4 x.bits.toNat)
  | .int32, .int32 n => .ok (encodeVarint (UInt64.ofInt n.toInt))
  | .int64, .int64 n => .ok (encodeVarint (UInt64.ofInt n.toInt))
  | .uint32, .uint32 n => .ok (encodeVarint (UInt64.ofNat n.toNat))
  | .uint64, .uint64 n => .ok (encodeVarint n)
  | .sint32, .int32 n => .ok (encodeVarint (zigzag32 n))
  | .sint64, .int64 n => .ok (encodeVarint (zigzag64 n))
  | .fixed32, .uint32 n => .ok (littleEndian 4 n.toNat)
  | .fixed64, .uint64 n => .ok (littleEndian 8 n.toNat)
  | .sfixed32, .int32 n => .ok (littleEndian 4 (UInt32.ofInt n.toInt).toNat)
  | .sfixed64, .int64 n => .ok (littleEndian 8 (UInt64.ofInt n.toInt).toNat)
  | .bool, .bool b => .ok (encodeVarint (if b then 1 else 0))
  | .string, .string s => .ok (lengthPrefixed (Text.utf8Encode s))
  | .bytes, .bytes bs => .ok (lengthPrefixed bs)
  | .enum target, .enum e =>
    match codec.numberOfEnum target.fqName path e with
    | .error e => .error e
    | .ok number => .ok (encodeVarint (UInt64.ofInt number.toInt))
  | kind, value => .error (.invalidValue path (misfit kind value))

/-- A record that holds a single value. -/
def valueRecord (write : Writer (List UInt8)) (info : FieldInfo) (path : String) :
    Except Error (List UInt8) :=
  match write info.kind path with
  | .error e => .error e
  | .ok body => .ok (encodeTag info.number info.kind.wireType ++ body)

/-- The values of several items one after the other. -/
def packedBytes (kind : FieldKind) (path : String) :
    List (Writer (List UInt8)) → Except Error (List UInt8)
  | [] => .ok []
  | write :: rest =>
    match write kind path with
    | .error e => .error e
    | .ok first =>
      match packedBytes kind path rest with
      | .error e => .error e
      | .ok more => .ok (first ++ more)

/-- The records of several items one after the other. -/
def itemRecords (info : FieldInfo) (path : String) :
    List (Writer (List UInt8)) → Except Error (List UInt8)
  | [] => .ok []
  | write :: rest =>
    match valueRecord write info path with
    | .error e => .error e
    | .ok first =>
      match itemRecords info path rest with
      | .error e => .error e
      | .ok more => .ok (first ++ more)

/-- What is wrong with the text of a key. -/
def badKey (kind : FieldKind) (key : String) : String :=
  "'" ++ key ++ "' is not a valid " ++ kind.text ++ " map key"

/-- The entry message of a map entry. -/
def entryBytes (codec : Codec) (key value : FieldInfo) (path : String) (text : String)
    (write : Writer (List UInt8)) : Except Error (List UInt8) :=
  match keyOfText? key.kind text with
  | none => .error (.invalidValue path (badKey key.kind text))
  | some k =>
    match valueRecord (codec.scalarBytes k) key path with
    | .error e => .error e
    | .ok first =>
      match valueRecord write value path with
      | .error e => .error e
      | .ok second => .ok (first ++ second)

/-- The records of a map field. -/
def entryRecords (codec : Codec) (number : UInt32) (key value : FieldInfo) (path : String) :
    List (String × Writer (List UInt8)) → Except Error (List UInt8)
  | [] => .ok []
  | (text, write) :: rest =>
    match codec.entryBytes key value path text write with
    | .error e => .error e
    | .ok entry =>
      match codec.entryRecords number key value path rest with
      | .error e => .error e
      | .ok more => .ok (bodyRecord number entry ++ more)

/-- The records of a repeated field. Nothing is written of an empty list. -/
def listRecords (info : FieldInfo) (path : String) (items : List (Writer (List UInt8))) :
    Except Error (List UInt8) :=
  if items.isEmpty then .ok []
  else if info.kind.isPackable then (bodyRecord info.number ·) <$> packedBytes info.kind path items
  else itemRecords info path items

/-- The records of a field that holds a single value. -/
def singleRecord (codec : Codec) (field : Field) (path : String) (view : View (List UInt8)) :
    Except Error (List UInt8) :=
  if field.implicitPresence then
    match codec.isZero field.info.kind path view.value with
    | .error e => .error e
    | .ok true => .ok []
    | .ok false => valueRecord view.write field.info path
  else valueRecord view.write field.info path

/-- The records of a field. -/
def fieldRecords (codec : Codec) (field : Field) (path : String) (view : View (List UInt8)) :
    Except Error (List UInt8) :=
  match field with
  | .map info key value =>
    match view.value with
    | .map _ => codec.entryRecords info.number key.info value.info path view.entries
    | _ => .error (.invalidValue path "expected a map")
  | .plain info =>
    if info.repeated then
      match view.value with
      | .list _ => listRecords info path view.items
      | _ => .error (.invalidValue path "expected a list")
    else codec.singleRecord (.plain info) path view

/-- The records of a field of a message. Nothing is written of an unset field. -/
def presentRecords (codec : Codec) (decl : MessageDecl)
    (views : List (String × View (List UInt8))) (field : Field) : Except Error (List UInt8) :=
  match KeyMap.find? views field.info.name with
  | none => .ok []
  | some view => codec.fieldRecords field (fieldPath decl field.info) view

/-- The records of the given fields of a message. -/
def recordsOf (codec : Codec) (decl : MessageDecl) (views : List (String × View (List UInt8))) :
    List Field → Except Error (List UInt8)
  | [] => .ok []
  | field :: rest =>
    match codec.presentRecords decl views field with
    | .error e => .error e
    | .ok first =>
      match codec.recordsOf decl views rest with
      | .error e => .error e
      | .ok more => .ok (first ++ more)

/-- The bytes of a single value, given the views of its fields if it is a message. -/
def valueBytes (codec : Codec) (value : Value) (views : List (String × View (List UInt8))) :
    Writer (List UInt8) := fun kind path =>
  match kind, value with
  | .message target, .message _ =>
    match codec.message target.fqName with
    | .error e => .error e
    | .ok decl => lengthPrefixed <$> codec.recordsOf decl views decl.fields
  | kind, value => codec.scalarBytes value kind path

/-- The bytes of a message as one of the given type. -/
def encodeAs (codec : Codec) (decl : MessageDecl) (m : Message) : Except Error (List UInt8) :=
  codec.recordsOf decl (Value.fieldViews codec.valueBytes m.fields) decl.fields

/-- The bytes of a message. -/
def encode (codec : Codec) (m : Message) : Except Error (List UInt8) :=
  match codec.message m.typeName with
  | .error e => .error e
  | .ok decl => codec.encodeAs decl m

end ProtoStub.Codec
