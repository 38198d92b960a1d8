import ProtoStub.Text.Quoted

/-
  Everything that can go wrong, by cause. A schema error is a fault of the schema
  that was handed in; the others are faults of the data, or of a request for a type
  that is not there.
-/

namespace ProtoStub

/-- The largest field number, 2^29 - 1. -/
def maxFieldNumber : Nat := 536870911

/-- The causes of failure. -/
inductive Error where
  /-- The file descriptor at `index` has no name. -/
  | missingFileName (index : Nat)
  /-- A file to generate is not among the descriptors. -/
  | unknownFile (file : String)
  /-- A type name that no visible file declares. -/
  | unresolved (name file : String)
  /-- A type name that several visible files declare. -/
  | ambiguous (name file : String) (candidates : List String)
  /-- A field with group encoding. -/
  | groupEncoding (field : String)
  /-- An extension declaration. -/
  | extensionField (field extendee : String)
  /-- A streaming method. -/
  | streaming (method : String)
  /-- A map entry message that is no map entry, or is used as something else. -/
  | mapEntry (message details : String)
  /-- A dialect of the schema language that is not supported. -/
  | dialect (name : String)
  /-- Bytes that are no message. -/
  | wireFormat (offset : Nat) (details : String)
  /-- Bytes that are no variable-length integer. -/
  | varint (offset : Nat)
  /-- A field number outside the permitted range. -/
  | fieldNumber (number : UInt32)
  /-- A text that is not JSON. -/
  | jsonText
  /-- A value that does not suit its field. -/
  | invalidValue (field details : String)
  /-- A type that the codec does not know. -/
  | unknownType (name : String)
  /-- A broken invariant. -/
  | internal (details : String)
  deriving DecidableEq, Repr

namespace Error

/-- What an error is called. -/
def message : Error → String
  | missingFileName index =>
    "file descriptor at position " ++ toString index ++ " has no name"
  | unknownFile file =>
    "file '" ++ file ++ "' was requested for generation but no descriptor was supplied"
  | unresolved name file =>
    "unresolved identifier '" ++ name ++ "' referenced from '" ++ file ++ "'"
  | ambiguous name file candidates =>
    "identifier '" ++ name ++ "' referenced from '" ++ file ++
      "' is defined in several visible files: " ++ Text.quotedList candidates
  | groupEncoding field =>
    "field '" ++ field ++ "' uses group encoding, which is not supported"
  | extensionField field extendee =>
    "extension '" ++ field ++ "' of '" ++ extendee ++ "' is not supported"
  | streaming method =>
    "method '" ++ method ++ "' is streaming, which is not supported"
  | mapEntry message details =>
    "map entry '" ++ message ++ "' is malformed: " ++ details
  | dialect name =>
    "unsupported proto syntax: '" ++ name ++ "'"
  | wireFormat offset details =>
    "invalid protobuf wire format at offset " ++ toString offset ++ ": " ++ details
  | varint offset =>
    "failed to decode varint at offset " ++ toString offset ++
      ": buffer too small or invalid encoding"
  | fieldNumber number =>
    "invalid field number " ++ toString number.toNat ++ ": must be between 1 and " ++
      toString maxFieldNumber
  | jsonText => "invalid JSON text"
  | invalidValue field details =>
    "invalid value for field '" ++ field ++ "': " ++ details
  | unknownType name => "unknown type '" ++ name ++ "'"
  | internal details => "internal error: " ++ details

/-- Whether an error is a fault of the schema. -/
def isSchema : Error → Bool
  | missingFileName _ | unknownFile _ | unresolved _ _ | ambiguous _ _ _ | groupEncoding _
  | extensionField _ _ | streaming _ | mapEntry _ _ | dialect _ => true
  | wireFormat _ _ | varint _ | fieldNumber _ | jsonText | invalidValue _ _ | unknownType _
  | internal _ => false

end Error
end ProtoStub
