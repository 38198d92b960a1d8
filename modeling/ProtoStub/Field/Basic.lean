import ProtoStub.Field.Kind
import ProtoStub.Text.CamelCase

/-
  Fields as generated code and the codec see them: the property that holds the field,
  its type, what it holds at first, the runtime operations that read and write it, and
  its names in JSON. A map field carries its key and value as fields of their own.
-/

namespace ProtoStub

/-- The type of a value in generated code. -/
inductive ScriptType where
  | number
  | bigInt
  | boolean
  | string
  | bytes
  | enum (target : TypeRef)
  | message (target : TypeRef)
  deriving DecidableEq, Repr

/-- What a field holds in a new message. -/
inductive Initial where
  | zero
  | bigZero
  | falsity
  | emptyText
  | emptyBytes
  | enumZero (target : TypeRef)
  | emptyList
  | emptyMap
  | unset
  deriving DecidableEq, Repr

/-- The names of the runtime operations of a field. -/
structure Operations where
  read : String
  write : String
  /-- Reads several values that share one record. -/
  packedRead : Option String
  deriving DecidableEq, Repr

namespace FieldKind

/-- The type of a single value; a group has none. -/
def scriptType? : FieldKind → Option ScriptType
  | double | float | int32 | uint32 | sint32 | fixed32 | sfixed32 => some .number
  | int64 | uint64 | sint64 | fixed64 | sfixed64 => some .bigInt
  | bool => some .boolean
  | string => some .string
  | bytes => some .bytes
  | enum target => some (.enum target)
  | message target => some (.message target)
  | group => none

/-- What a single value is at first, unless it may be absent. -/
def initialValue : FieldKind → Initial
  | double | float | int32 | uint32 | sint32 | fixed32 | sfixed32 => .zero
  | int64 | uint64 | sint64 | fixed64 | sfixed64 => .bigZero
  | bool => .falsity
  | string => .emptyText
  | bytes => .emptyBytes
  | enum target => .enumZero target
  | message _ | group => .unset

/-- What the runtime calls values of a kind; 64-bit integers go through decimal strings. -/
def operand : FieldKind → String
  | double => "Double"
  | float => "Float"
  | int32 => "Int32"
  | int64 => "Int64String"
  | uint32 => "Uint32"
  | uint64 => "Uint64String"
  | sint32 => "Sint32"
  | sint64 => "Sint64String"
  | fixed32 => "Fixed32"
  | fixed64 => "Fixed64String"
  | sfixed32 => "Sfixed32"
  | sfixed64 => "Sfixed64String"
  | bool => "Bool"
  | string => "String"
  | bytes => "Bytes"
  | enum _ => "Enum"
  | message _ => "Message"
  | group => "Group"

/-- The runtime operations of a field. Repeated values are packed where they can be. -/
def operations (kind : FieldKind) (repeated : Bool) : Operations :=
  { read := "read" ++ kind.operand
    write :=
      if !repeated then "write" ++ kind.operand
      else if kind.isPackable then "writePacked" ++ kind.operand
      else "writeRepeated" ++ kind.operand
    packedRead :=
      if repeated && kind.isPackable then some ("readPacked" ++ kind.operand) else none }

/-- What a field holds at first. -/
def initial (kind : FieldKind) (repeated optional : Bool) : Initial :=
  if repeated then .emptyList
  else if optional then .unset
  else kind.initialValue

end FieldKind

/-- What generated code needs to know of a field's type. -/
structure FieldShape where
  scriptType : ScriptType
  initial : Initial
  operations : Operations
  deriving DecidableEq, Repr

/-- The shape of a field; groups are not supported. -/
def FieldShape.of (kind : FieldKind) (repeated optional : Bool) : Except Error FieldShape :=
  match kind.scriptType? with
  | none => .error (.groupEncoding "<group>")
  | some type => .ok ⟨type, kind.initial repeated optional, kind.operations repeated⟩

/-- What is known of every field. -/
structure FieldInfo where
  /-- The property that holds the field. -/
  name : String
  number : UInt32
  repeated : Bool
  /-- Whether the field can be absent while holding a single value. -/
  optional : Bool
  /-- The oneof that the field is a member of. -/
  oneof : Option String
  kind : FieldKind
  initial : Initial
  operations : Operations
  /-- The name in the schema. -/
  protoName : String
  jsonName : String
  /-- The JSON name if it is not the property name. -/
  customJsonName : Option String
  comment : Option String
  deriving DecidableEq, Repr

/-- A field: a plain one, or a map with the fields of its entries. -/
inductive Field where
  | plain (info : FieldInfo)
  | map (info : FieldInfo) (key value : Field)
  deriving DecidableEq, Repr

namespace FieldInfo

/-- Whether a kind is a message. -/
def hasMessageKind (info : FieldInfo) : Bool :=
  match info.kind with
  | .message _ => true
  | _ => false

/-- The name under which JSON output shows a field. -/
def outputName (info : FieldInfo) (protoNames : Bool) : String :=
  if protoNames then info.protoName else info.jsonName

/-- The names under which JSON input may hold a field, the preferred one first. -/
def readNames (info : FieldInfo) : List String :=
  (info.customJsonName.toList ++ [Text.camelCase info.protoName, info.protoName]).eraseDups

end FieldInfo

namespace Field

/-- What is known of a field. -/
def info : Field → FieldInfo
  | plain info => info
  | map info _ _ => info

/-- Whether a field is a map. -/
def isMap : Field → Bool
  | plain _ => false
  | map _ _ _ => true

/-- Whether a field holds a single message. -/
def isMessage : Field → Bool
  | plain info => info.hasMessageKind && !info.repeated
  | map _ _ _ => false

/-- Whether a field that holds its zero value counts as absent. -/
def implicitPresence (field : Field) : Bool :=
  !field.info.repeated && !field.info.optional && !field.isMap && !field.isMessage

/-- A field with other information. -/
def withInfo : Field → FieldInfo → Field
  | plain _, info => plain info
  | map _ key value, info => map info key value

end Field
end ProtoStub
