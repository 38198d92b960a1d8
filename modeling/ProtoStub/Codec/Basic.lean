import ProtoStub.Text.Numeral
import ProtoStub.Tree.Basic
import ProtoStub.Value.Text

/-
  The codec of a set of resolved files: it finds messages and enums by their full names,
  converts between enum names and numbers, and makes new messages.
-/

namespace ProtoStub

/-- What a codec knows: declarations by full name, and how JSON is written. -/
structure Codec where
  messages : List MessageDecl
  enums : List EnumDecl
  /-- Whether JSON output has the fields that hold their default. -/
  emitDefaults : Bool := false
  /-- Whether JSON output uses the names of the schema. -/
  protoNames : Bool := false
  deriving DecidableEq, Repr

/-- The message that a declaration is. -/
def Decl.asMessage : Decl → Option MessageDecl
  | enum _ => none
  | message m _ => some m

/-- The enum that a declaration is. -/
def Decl.asEnum : Decl → Option EnumDecl
  | enum e => some e
  | message _ _ => none

namespace Codec

/-- The codec of all declarations of some files. Of two declarations with one name the later
counts, so the later ones come first. -/
def ofTrees (trees : List FileTree) (options : Options) : Codec :=
  let decls := (trees.flatMap FileTree.walk).reverse
  { messages := decls.filterMap Decl.asMessage
    enums := decls.filterMap Decl.asEnum
    emitDefaults := options.emitDefaults
    protoNames := options.protoNames }

/-- The message with a name, which may start with a dot. -/
def message (codec : Codec) (name : String) : Except Error MessageDecl :=
  let name := Text.withoutDot name
  match codec.messages.find? (·.fqName = name) with
  | some m => .ok m
  | none => .error (.unknownType name)

/-- The enum with a name, which may start with a dot. -/
def enumeration (codec : Codec) (name : String) : Except Error EnumDecl :=
  let name := Text.withoutDot name
  match codec.enums.find? (·.fqName = name) with
  | some e => .ok e
  | none => .error (.unknownType name)

/-- The value of an enum with a number. -/
def enumOfNumber (codec : Codec) (enumName : String) (number : Int32) :
    Except Error EnumValue := do
  let e ← codec.enumeration enumName
  return match e.nameOf? number with
    | some name => .named name
    | none => .unknown number

/-- What is wrong with a name that an enum does not declare. -/
def undeclaredName (enumName name : String) : String :=
  "'" ++ name ++ "' is not a value of " ++ enumName

/-- The number of a value of an enum, which the field at `path` holds. -/
def numberOfEnum (codec : Codec) (enumName : String) (path : String) :
    EnumValue → Except Error Int32
  | .unknown number => .ok number
  | .named name => do
    let e ← codec.enumeration enumName
    match e.numberOf? name with
    | some number => return number
    | none => throw (.invalidValue path (undeclaredName enumName name))

/-- The zero of a scalar kind. -/
def zeroOf (kind : FieldKind) : Except Error Value :=
  match kind with
  | .double => .ok (.double .zero)
  | .float => .ok (.float .zero)
  | .int32 | .sint32 | .sfixed32 => .ok (.int32 0)
  | .int64 | .sint64 | .sfixed64 => .ok (.int64 0)
  | .uint32 | .fixed32 => .ok (.uint32 0)
  | .uint64 | .fixed64 => .ok (.uint64 0)
  | .bool => .ok (.bool false)
  | .string => .ok (.string "")
  | .bytes => .ok (.bytes [])
  | .enum _ | .message _ | .group =>
    .error (.internal (kind.text ++ " has no scalar zero value"))

/-- What a field holds in a new message, if anything. -/
def defaultValue (codec : Codec) (info : FieldInfo) : Except Error (Option Value) :=
  match info.initial with
  | .zero | .bigZero | .falsity | .emptyText | .emptyBytes => some <$> zeroOf info.kind
  | .enumZero target => (fun e => some (.enum e)) <$> codec.enumOfNumber target.fqName 0
  | .emptyList => .ok (some (.list []))
  | .emptyMap => .ok (some (.map []))
  | .unset => .ok none

/-- Sets the given fields of a message to their defaults. -/
def setDefaults (codec : Codec) : List Field → Message → Except Error Message
  | [], m => .ok m
  | field :: rest, m =>
    match codec.defaultValue field.info with
    | .error e => .error e
    | .ok value => codec.setDefaults rest (m.update field.info.name value)

/-- A new message of a type, with every field at its default. -/
def newMessage (codec : Codec) (decl : MessageDecl) : Except Error Message :=
  codec.setDefaults decl.fields (Message.empty decl.fqName)

/-- A new message of the type with a name. -/
def create (codec : Codec) (typeName : String) : Except Error Message := do
  codec.newMessage (← codec.message typeName)

/-- How diagnostics name a field of a message. -/
def fieldPath (decl : MessageDecl) (info : FieldInfo) : String :=
  decl.fqName ++ "." ++ info.name

/-- Whether a value is the zero of its kind. Negative zero is one; messages, lists and maps
are none. -/
def isZero (codec : Codec) (kind : FieldKind) (path : String) : Value → Except Error Bool
  | .double x => .ok x.isZero
  | .float x => .ok x.isZero
  | .int32 n => .ok (n = 0)
  | .int64 n => .ok (n = 0)
  | .uint32 n => .ok (n = 0)
  | .uint64 n => .ok (n = 0)
  | .bool b => .ok !b
  | .string s => .ok (s = "")
  | .bytes bs => .ok bs.isEmpty
  | .enum e =>
    match kind with
    | .enum target => (fun (n : Int32) => n = 0) <$> codec.numberOfEnum target.fqName path e
    | _ => .ok false
  | .message _ | .list _ | .map _ => .ok false

/-- What is wrong with a value that is of another kind than its field. -/
def misfit (kind : FieldKind) (value : Value) : String :=
  value.text ++ " does not fit a " ++ kind.text ++ " field"

/-- The signed 32-bit integer that a numeral writes. -/
def int32OfInt? (n : Int) : Option Int32 :=
  if Int32.minValue.toInt ≤ n ∧ n ≤ Int32.maxValue.toInt then some (Int32.ofInt n) else none

/-- The signed 64-bit integer that a numeral writes. -/
def int64OfInt? (n : Int) : Option Int64 :=
  if Int64.minValue.toInt ≤ n ∧ n ≤ Int64.maxValue.toInt then some (Int64.ofInt n) else none

/-- The unsigned 32-bit integer that a numeral writes. -/
def uint32OfNat? (n : Nat) : Option UInt32 :=
  if n < UInt32.size then some (UInt32.ofNat n) else none

/-- The unsigned 64-bit integer that a numeral writes. -/
def uint64OfNat? (n : Nat) : Option UInt64 :=
  if n < UInt64.size then some (UInt64.ofNat n) else none

/-- The key of a map that a text stands for. Every text but `true` is the key `false`. -/
def keyOfText? (kind : FieldKind) (text : String) : Option Value :=
  match kind with
  | .int32 | .sint32 | .sfixed32 => ((Text.integer? text).bind int32OfInt?).map .int32
  | .int64 | .sint64 | .sfixed64 => ((Text.integer? text).bind int64OfInt?).map .int64
  | .uint32 | .fixed32 => ((Text.natural? text).bind uint32OfNat?).map .uint32
  | .uint64 | .fixed64 => ((Text.natural? text).bind uint64OfNat?).map .uint64
  | .bool => some (.bool (text = "true"))
  | .string => some (.string text)
  | _ => none

/-- The text that stands for a key of a map. -/
def textOfKey : Value → String
  | .int32 n => toString n.toInt
  | .int64 n => toString n.toInt
  | .uint32 n => toString n.toNat
  | .uint64 n => toString n.toNat
  | .bool b => if b then "true" else "false"
  | .string s => s
  | other => other.text

end Codec
end ProtoStub
