import ProtoStub.Binary.Reading
import ProtoStub.Codec.Basic
import ProtoStub.Json.Parser
import ProtoStub.Json.Printer
import ProtoStub.Text.Base64
import ProtoStub.Text.Blank

/-
  Messages from JSON. Each field takes the first of its names that the object has with a
  value other than null; other members are passed over. Numbers may be written as strings.
-/

namespace ProtoStub.Codec

/-- A double from JSON. -/
def double? : Json → Option Binary64
  | .number n => some n.toDouble
  | .string "NaN" => some .nan
  | .string "Infinity" => some (.infinity false)
  | .string "-Infinity" => some (.infinity true)
  | .string s => Text.double? (Text.trim s)
  | _ => none

/-- The integer from `least` to `greatest` that a number without a fractional part comes to.
As a double the greatest one cannot be told from the one after it, which is taken for it. -/
def integralBetween? (least greatest : Int) (n : JsonNumber) : Option Int :=
  n.toDouble.toInt?.bind fun i =>
    if least ≤ i ∧ i ≤ greatest + 1 then some (min i greatest) else none

/-- The signed 64-bit integer that a number comes to as a double. -/
def roundedInt64? (n : JsonNumber) : Option Int64 :=
  (integralBetween? Int64.minValue.toInt Int64.maxValue.toInt n).map Int64.ofInt

/-- The unsigned 64-bit integer that a number comes to as a double. -/
def roundedUInt64? (n : JsonNumber) : Option UInt64 :=
  (integralBetween? 0 (UInt64.size - 1) n).map fun i => UInt64.ofNat i.toNat

/-- A signed 64-bit integer from JSON. -/
def int64? : Json → Option Int64
  | .number (.negative n) => some n
  | .number (.natural n) => (int64OfInt? n.toNat).or (roundedInt64? (.natural n))
  | .number (.fractional x) => roundedInt64? (.fractional x)
  | .string s => (Text.integer? (Text.trim s)).bind int64OfInt?
  | _ => none

/-- An unsigned 64-bit integer from JSON. -/
def uint64? : Json → Option UInt64
  | .number (.natural n) => some n
  | .number n => roundedUInt64? n
  | .string s => (Text.natural? (Text.trim s)).bind uint64OfNat?
  | _ => none

/-- A signed 32-bit integer from JSON. -/
def int32? (json : Json) : Option Int32 :=
  (int64? json).bind fun n => int32OfInt? n.toInt

/-- An unsigned 32-bit integer from JSON. -/
def uint32? (json : Json) : Option UInt32 :=
  (uint64? json).bind fun n => uint32OfNat? n.toNat

/-- What is wrong with a document that is not what a field expects. -/
def unexpected (path expected : String) (json : Json) : Error :=
  .invalidValue path ("expected " ++ expected ++ ", got " ++ json.print)

/-- The value that was found, or an error that says what was expected. -/
def expect {α : Type} (path expected : String) (json : Json) : Option α → Except Error α
  | some a => .ok a
  | none => .error (unexpected path expected json)

/-- A value of an enum from JSON. -/
def enumOfJson (codec : Codec) (target : TypeRef) (path : String) (json : Json) :
    Except Error EnumValue :=
  match json with
  | .number _ => do
    let number ← expect path "an enum number" json (int32? json)
    codec.enumOfNumber target.fqName number
  | .string name => do
    let e ← codec.enumeration target.fqName
    match e.numberOf? name with
    | some _ => return .named name
    | none => throw (.invalidValue path (undeclaredName target.fqName name))
  | _ => .error (unexpected path "an enum name or number" json)

/-- Bytes from JSON. -/
def bytesOfJson (path : String) (json : Json) : Except Error (List UInt8) :=
  match json with
  | .string s =>
    match Text.base64Decode s with
    | .ok bs => .ok bs
    | .error fault => .error (.invalidValue path ("invalid base64: " ++ fault.message))
  | _ => .error (unexpected path "a base64 string" json)

/-- A truth value from JSON. -/
def bool? : Json → Option Bool
  | .bool b => some b
  | _ => none

/-- A text from JSON. -/
def string? : Json → Option String
  | .string s => some s
  | _ => none

/-- A single value that is no message from JSON. -/
def scalarOfJson (codec : Codec) (kind : FieldKind) (path : String) (json : Json) :
    Except Error Value :=
  match kind with
  | .double => .double <$> expect path "a number" json (double? json)
  | .float => (fun x => .float x.narrow) <$> expect path "a number" json (double? json)
  | .int32 | .sint32 | .sfixed32 => .int32 <$> expect path "a 32-bit integer" json (int32? json)
  | .uint32 | .fixed32 =>
    .uint32 <$> expect path "an unsigned 32-bit integer" json (uint32? json)
  | .int64 | .sint64 | .sfixed64 => .int64 <$> expect path "a 64-bit integer" json (int64? json)
  | .uint64 | .fixed64 =>
    .uint64 <$> expect path "an unsigned 64-bit integer" json (uint64? json)
  | .bool => .bool <$> expect path "a boolean" json (bool? json)
  | .string => .string <$> expect path "a string" json (string? json)
  | .bytes => .bytes <$> bytesOfJson path json
  | .enum target => .enum <$> codec.enumOfJson target path json
  | .message _ | .group => .error (.groupEncoding path)

/-- A document with the ways to read it and its parts. -/
structure JsonView where
  json : Json
  /-- Reads the document as a message of a type, into a message that is there already. -/
  message : MessageDecl → Message → Except Error Message
  /-- The items, if the document is an array: each as a value of a kind. -/
  items : List (FieldKind → String → Except Error Value)
  /-- The members, if the document is an object: each as a value of a kind. -/
  members : List (String × (FieldKind → String → Except Error Value))

/-- Reads a document as a single value of a kind. -/
def JsonView.value (codec : Codec) (view : JsonView) (kind : FieldKind) (path : String) :
    Except Error Value :=
  match kind with
  | .message target => do
    let decl ← codec.message target.fqName
    let start ← codec.newMessage decl
    .message <$> view.message decl start
  | kind => codec.scalarOfJson kind path view.json

/-- The items of an array as values of a kind. -/
def itemsOfJson (kind : FieldKind) (path : String) :
    List (FieldKind → String → Except Error Value) → Except Error (List Value)
  | [] => .ok []
  | read :: rest =>
    match read kind path with
    | .error e => .error e
    | .ok first => (first :: ·) <$> itemsOfJson kind path rest

/-- The members of an object as values of a kind, added to a map. -/
def entriesOfJson (kind : FieldKind) (path : String) (entries : KeyMap Value) :
    List (String × (FieldKind → String → Except Error Value)) → Except Error (KeyMap Value)
  | [] => .ok entries
  | (key, read) :: rest =>
    match read kind path with
    | .error e => .error e
    | .ok value => entriesOfJson kind path (KeyMap.insert entries key value) rest

/-- What is wrong with a document that is no object. -/
def noObject : String := "expected a JSON object"

/-- What a field holds after a document is read into it; `old` is what it holds before. -/
def contentOfJson (codec : Codec) (field : Field) (path : String) (old : Option Value)
    (view : JsonView) : Except Error Value :=
  match field with
  | .map _ _ value =>
    match view.json with
    | .object _ => .map <$> entriesOfJson value.info.kind path [] view.members
    | _ => .error (.invalidValue path noObject)
  | .plain info =>
    if info.repeated then
      match view.json with
      | .array _ => .list <$> itemsOfJson info.kind path view.items
      | _ => .error (.invalidValue path "expected a JSON array")
    else
      match info.kind, old with
      | .message target, some (.message m) => do
        let decl ← codec.message target.fqName
        .message <$> view.message decl m
      | kind, _ => view.value codec kind path

/-- The first of several names that a member other than null has. -/
def firstPresent? (views : List (String × JsonView)) (names : List String) : Option JsonView :=
  (names.filterMap (KeyMap.find? views)).find? (!·.json.isNull)

/-- Reads the members of an object into the given fields of a message. -/
def fieldsOfJson (codec : Codec) (decl : MessageDecl) (views : List (String × JsonView)) :
    List Field → Message → Except Error Message
  | [], m => .ok m
  | field :: rest, m =>
    match firstPresent? views field.info.readNames with
    | none => codec.fieldsOfJson decl views rest m
    | some view =>
      match codec.contentOfJson field (fieldPath decl field.info) (m.get? field.info.name) view with
      | .error e => .error e
      | .ok value => codec.fieldsOfJson decl views rest (m.set field.info.name value)

/-- Refuses a document that is no object. -/
def refuseMessage (decl : MessageDecl) (_ : Message) : Except Error Message :=
  .error (.invalidValue decl.fqName noObject)

mutual

/-- The view of a document. -/
def jsonView (codec : Codec) : Json → JsonView
  | .object members =>
    let views := codec.memberViews members
    { json := .object members
      message := fun decl m => codec.fieldsOfJson decl views decl.fields m
      items := []
      members := views.map fun p => (p.1, p.2.value codec) }
  | .array items =>
    { json := .array items
      message := refuseMessage
      items := (codec.itemViews items).map fun view => view.value codec
      members := [] }
  | .null => ⟨.null, refuseMessage, [], []⟩
  | .bool b => ⟨.bool b, refuseMessage, [], []⟩
  | .number n => ⟨.number n, refuseMessage, [], []⟩
  | .string s => ⟨.string s, refuseMessage, [], []⟩

/-- The views of the items of an array. -/
def itemViews (codec : Codec) : List Json → List JsonView
  | [] => []
  | j :: rest => codec.jsonView j :: codec.itemViews rest

/-- The views of the members of an object. -/
def memberViews (codec : Codec) : List (String × Json) → List (String × JsonView)
  | [] => []
  | (k, j) :: rest => (k, codec.jsonView j) :: codec.memberViews rest

end

/-- Reads a document as a message of a type. -/
def ofJson (codec : Codec) (typeName : String) (json : Json) : Except Error Message :=
  match codec.message typeName with
  | .error e => .error e
  | .ok decl =>
    match codec.newMessage decl with
    | .error e => .error e
    | .ok start => (codec.jsonView json).message decl start

/-- Reads a JSON text as a message of a type. -/
def decodeJson (codec : Codec) (typeName : String) (text : String) : Except Error Message :=
  match Json.parse? text with
  | none => .error .jsonText
  | some json => codec.ofJson typeName json

end ProtoStub.Codec
