import ProtoStub.Descriptor
import ProtoStub.Error
import ProtoStub.TypeRef
import ProtoStub.Wire.Tag

/-
  The kinds of fields, with named types resolved: how a kind travels, whether its
  values can be packed, and whether it can be the key of a map.
-/

namespace ProtoStub

open Wire (WireType)

/-- The kind of a field. -/
inductive FieldKind where
  | double
  | float
  | int32
  | int64
  | uint32
  | uint64
  | sint32
  | sint64
  | fixed32
  | fixed64
  | sfixed32
  | sfixed64
  | bool
  | string
  | bytes
  | enum (target : TypeRef)
  | message (target : TypeRef)
  | group
  deriving DecidableEq, Repr

namespace FieldKind

/-- Whether a declared type names another declaration. -/
def namesType : FieldType → Bool
  | .message | .enum => true
  | _ => false

/-- The kind of a declared type; `target` finds the declaration that the type names. -/
def ofType {m : Type → Type} [Monad m] (target : m TypeRef) : FieldType → m FieldKind
  | .double => pure double
  | .float => pure float
  | .int64 => pure int64
  | .uint64 => pure uint64
  | .int32 => pure int32
  | .fixed64 => pure fixed64
  | .fixed32 => pure fixed32
  | .bool => pure bool
  | .string => pure string
  | .group => pure group
  | .message => message <$> target
  | .bytes => pure bytes
  | .uint32 => pure uint32
  | .enum => enum <$> target
  | .sfixed32 => pure sfixed32
  | .sfixed64 => pure sfixed64
  | .sint32 => pure sint32
  | .sint64 => pure sint64

/-- How a single value of a kind travels. -/
def wireType : FieldKind → WireType
  | int32 | int64 | uint32 | uint64 | sint32 | sint64 | bool | enum _ => .varint
  | double | fixed64 | sfixed64 => .i64
  | float | fixed32 | sfixed32 => .i32
  | string | bytes | message _ => .len
  | group => .startGroup

/-- Whether several values can share one record. -/
def isPackable (kind : FieldKind) : Bool :=
  match kind.wireType with
  | .varint | .i64 | .i32 => true
  | _ => false

/-- Whether a kind can be the key of a map. -/
def isMapKey : FieldKind → Bool
  | double | float | bytes | enum _ | message _ | group => false
  | _ => true

/-- A reference in diagnostics. -/
def refText (ref : TypeRef) : String :=
  "TypeRef \x7b fq_name: " ++ Text.quoted ref.fqName ++ ", file: " ++ Text.quoted ref.file ++
    ", package: " ++ Text.quoted ref.package ++ ", short_name: " ++ Text.quoted ref.shortName ++
    ", kind: " ++ (match ref.kind with | .message => "Message" | .enum => "Enum") ++
    ", local_name: " ++ Text.quoted ref.localName ++ " \x7d"

/-- A kind in diagnostics. -/
def text : FieldKind → String
  | double => "Double"
  | float => "Float"
  | int32 => "Int32"
  | int64 => "Int64"
  | uint32 => "Uint32"
  | uint64 => "Uint64"
  | sint32 => "Sint32"
  | sint64 => "Sint64"
  | fixed32 => "Fixed32"
  | fixed64 => "Fixed64"
  | sfixed32 => "Sfixed32"
  | sfixed64 => "Sfixed64"
  | bool => "Bool"
  | string => "String"
  | bytes => "Bytes"
  | enum target => "Enum(" ++ refText target ++ ")"
  | message target => "Message(" ++ refText target ++ ")"
  | group => "Group"

end FieldKind
end ProtoStub
