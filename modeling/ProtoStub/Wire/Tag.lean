import ProtoStub.Error
import ProtoStub.Wire.Varint

/-
  Tags. Every record of a message starts with a tag: the field number and, in its
  low three bits, the wire type, which says how the record's value is laid out.
-/

namespace ProtoStub.Wire

/-- How the value of a record is laid out. -/
inductive WireType where
  /-- A variable-length integer. -/
  | varint
  /-- Eight bytes. -/
  | i64
  /-- A length and as many bytes. -/
  | len
  /-- The opening marker of a group. -/
  | startGroup
  /-- The closing marker of a group. -/
  | endGroup
  /-- Four bytes. -/
  | i32
  deriving DecidableEq, Repr

namespace WireType

/-- The three-bit code of a wire type. -/
def code : WireType → Nat
  | varint => 0
  | i64 => 1
  | len => 2
  | startGroup => 3
  | endGroup => 4
  | i32 => 5

/-- The wire type of a code. -/
def ofCode (code : Nat) : Except Error WireType :=
  match code with
  | 0 => .ok varint
  | 1 => .ok i64
  | 2 => .ok len
  | 3 => .ok startGroup
  | 4 => .ok endGroup
  | 5 => .ok i32
  | _ => .error (.wireFormat 0 ("unknown wire type: " ++ toString code))

/-- The name of a wire type in diagnostics. -/
def name : WireType → String
  | varint => "Varint"
  | i64 => "I64"
  | len => "Len"
  | startGroup => "StartGroup"
  | endGroup => "EndGroup"
  | i32 => "I32"

end WireType

/-- The tag of a field number and a wire type. -/
def tagValue (number : UInt32) (wireType : WireType) : UInt64 :=
  UInt64.ofNat (number.toNat * 8 + wireType.code)

/-- The bytes of a tag. -/
def encodeTag (number : UInt32) (wireType : WireType) : List UInt8 :=
  encodeVarint (tagValue number wireType)

/-- The field number and the wire type of a tag. Of the number only 32 bits are looked at,
and it must be a field number. -/
def splitTag (tag : UInt64) : Except Error (UInt32 × WireType) := do
  let wireType ← WireType.ofCode (tag.toNat % 8)
  let number := UInt32.ofNat (tag.toNat / 8)
  if number = 0 ∨ maxFieldNumber < number.toNat then
    throw (.fieldNumber number)
  return (number, wireType)

end ProtoStub.Wire
