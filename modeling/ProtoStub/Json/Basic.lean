import ProtoStub.Binary.Number
import ProtoStub.KeyMap

/-
  JSON documents. A number keeps whether it was written as an integer that fits 64 bits;
  an object is a map, so its members come in the order of their names.
-/

namespace ProtoStub

/-- A JSON number. -/
inductive JsonNumber where
  /-- An integer from zero on. -/
  | natural (n : UInt64)
  /-- A negative integer. -/
  | negative (n : Int64)
  /-- Any other finite number. -/
  | fractional (x : Binary64)
  deriving DecidableEq, Repr

namespace JsonNumber

/-- A number as a double. -/
def toDouble : JsonNumber → Binary64
  | natural n => Binary64.ofInt n.toNat
  | negative n => Binary64.ofInt n.toInt
  | fractional x => x

/-- The JSON number of an integer that fits 64 bits. -/
def ofInt (n : Int) : JsonNumber :=
  if n < 0 then negative (Int64.ofInt n) else natural (UInt64.ofNat n.toNat)

end JsonNumber

/-- A JSON document. -/
inductive Json where
  | null
  | bool (b : Bool)
  | number (n : JsonNumber)
  | string (s : String)
  | array (items : List Json)
  | object (members : List (String × Json))

namespace Json

/-- Whether a document is `null`. -/
def isNull : Json → Bool
  | null => true
  | _ => false

instance : Inhabited Json := ⟨null⟩

end Json
end ProtoStub
