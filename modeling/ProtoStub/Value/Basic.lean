import ProtoStub.Binary.Number
import ProtoStub.KeyMap

/-
  Values of fields and messages. A message holds its fields by property name; a field
  that is not there is unset.
-/

namespace ProtoStub

/-- A value of an enum: a declared name, or a number that nobody declares. -/
inductive EnumValue where
  | named (name : String)
  | unknown (number : Int32)
  deriving DecidableEq, Repr

mutual

/-- A value of a field. -/
inductive Value where
  | double (x : Binary64)
  | float (x : Binary32)
  | int32 (n : Int32)
  | int64 (n : Int64)
  | uint32 (n : UInt32)
  | uint64 (n : UInt64)
  | bool (b : Bool)
  | string (s : String)
  | bytes (bs : List UInt8)
  | enum (e : EnumValue)
  | message (m : Message)
  | list (items : List Value)
  /-- A map, by the text of its keys. -/
  | map (entries : List (String × Value))

/-- A message: the full name of its type and its fields by property name. -/
structure Message where
  typeName : String
  fields : List (String × Value)

end

instance : Inhabited Value := ⟨.bool false⟩

instance : Inhabited Message := ⟨⟨"", []⟩⟩

namespace Message

/-- The message of a type in which no field is set. -/
def empty (typeName : String) : Message := ⟨typeName, []⟩

/-- The value of a property. -/
def get? (m : Message) (name : String) : Option Value := KeyMap.find? m.fields name

/-- Sets a property. -/
def set (m : Message) (name : String) (value : Value) : Message :=
  { m with fields := KeyMap.insert m.fields name value }

/-- Unsets a property. -/
def unset (m : Message) (name : String) : Message :=
  { m with fields := KeyMap.erase m.fields name }

/-- Gives a property a value, or leaves it as it is. -/
def update (m : Message) (name : String) : Option Value → Message
  | some value => m.set name value
  | none => m

end Message

namespace Value

/-- The list that results from adding an item to what a property holds. Anything that is no
list gives way to a new one. -/
def pushItem (old : Option Value) (item : Value) : Value :=
  match old with
  | some (.list items) => .list (items ++ [item])
  | _ => .list [item]

/-- What a property holds after several items are added. -/
def pushItems (old : Option Value) (items : List Value) : Option Value :=
  match items, old with
  | [], old => old
  | items, some (.list before) => some (.list (before ++ items))
  | items, _ => some (.list items)

/-- What a map property holds after an entry is added; anything that is no map stays. -/
def putEntry (old : Option Value) (key : String) (value : Value) : Value :=
  match old with
  | none => .map (KeyMap.insert [] key value)
  | some (.map entries) => .map (KeyMap.insert entries key value)
  | some other => other

end Value
end ProtoStub
