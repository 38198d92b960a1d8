import ProtoStub.Script.JsonMethods
import ProtoStub.Script.WireMethods

/-
  The objects of a module that encode and decode: one for each message and each enum.
  What is nested in a message is a member of its object.
-/

namespace ProtoStub.Script

/-- The start of an object: a constant of the module, or a member of another object. -/
def objectHead (name : String) (outermost : Bool) : List Code :=
  if outermost then ["export const ", name, " = \x7b"] else [name, ": \x7b"]

/-- An object. -/
def object (name : String) (outermost : Bool) (mark : String) (body : List Line) : List Line :=
  if outermost then block (objectHead name outermost) body ("\x7d" ++ mark ++ ";") ++ [.blank]
  else block (objectHead name outermost) body ("\x7d" ++ mark ++ ",")

/-- A method with a documentation line and a single statement. -/
def shortMethod (doc : String) (head : List Code) (statement : List Code) : List Line :=
  documentation [doc] ++ block head [line statement] "\x7d," ++ [.blank]

/-- The methods that convert whole messages. -/
def conversionMethods (language : Language) (name : String) : List Line :=
  shortMethod ("Serializes " ++ name ++ " to protobuf.")
      (signature language "encode: function " [("msg", partialType name)] "Uint8Array")
      ["return ", name, "._writeMessage(msg, new ", runtime .binaryWriter,
        "()).getResultBuffer();"] ++
  shortMethod ("Deserializes " ++ name ++ " from protobuf.")
      (signature language "decode: function " [("bytes", runtime .byteSource)] name)
      ["return ", name, "._readMessage(", name, ".initialize(), new ", runtime .binaryReader,
        "(bytes));"] ++
  shortMethod ("Serializes " ++ name ++ " to JSON.")
      (signature language "encodeJSON: function " [("msg", partialType name)] "string")
      ["return JSON.stringify(", name, "._writeMessageJSON(msg));"] ++
  shortMethod ("Deserializes " ++ name ++ " from JSON.")
      (signature language "decodeJSON: function " [("json", "string")] name)
      ["return ", name, "._readMessageJSON(", name, ".initialize(), JSON.parse(json));"]

/-- The members that a new message starts with. -/
def initialMembers (m : MessageDecl) : List Line :=
  m.fields.filterMap fun field =>
    (initialExpression field.info.initial).map fun expression =>
      line [field.info.name, ": ", expression, ","]

/-- The method that makes a new message. -/
def initializeMethod (language : Language) (m : MessageDecl) : List Line :=
  documentation ["Initializes " ++ m.shortName ++ " with all fields set to their default value."] ++
    block (signature language "initialize: function " [] m.shortName)
      (if (initialMembers m).isEmpty then [line ["return \x7b\x7d;"]]
      else block ["return \x7b"] (initialMembers m) "\x7d;")
      "\x7d," ++
    [.blank]

/-- The methods of a message. -/
def messageMethods (options : Options) (m : MessageDecl) : List Line :=
  conversionMethods options.language m.shortName ++ initializeMethod options.language m ++
    writeMethod options.language m ++ [.blank] ++
    writeJsonMethod options m ++ [.blank] ++
    readMethod options.language m ++ [.blank] ++
    readJsonMethod options.language m

/-- The values whose number no earlier value has. -/
def firstOfNumbers : List EnumValueDecl → List EnumValueDecl
  | [] => []
  | v :: rest => v :: (firstOfNumbers rest).filter (·.number ≠ v.number)

/-- Why an enum can hold what it does not declare. -/
def unknownNote : String :=
  "// unknown values are preserved as numbers. this occurs when new enum values are " ++
    "introduced and the generated code is out of date."

/-- A method of an enum that goes through its values. -/
def enumMethod (head : List Code) (cases : List Line) (otherwise : Code) : List Line :=
  privateMark ++
    block head
      (block ["switch (i) \x7b"]
        (cases ++ line [unknownNote] :: caseOf ["default"] [line ["return ", otherwise, ";"]])
        "\x7d")
      "\x7d,"

/-- The member of an enum object that holds the name of a value. -/
def enumMember (v : EnumValueDecl) : List Line :=
  comment v.comment ++ [line [v.name, ": ", inQuotes v.name, ","]]

/-- The object of an enum. -/
def enumObject (language : Language) (outermost : Bool) (e : EnumDecl) : List Line :=
  comment e.comment ++
    object e.name outermost (if language.isTyped then " as const" else "")
      (e.values.flatMap enumMember ++
        enumMethod (signature language "_fromInt: function " [("i", "number")] e.shortName)
          ((firstOfNumbers e.values).flatMap fun v =>
            caseOf ["case ", toString v.number.toInt] [line ["return ", inQuotes v.name, ";"]])
          (cast language "i" (code ["unknown as ", e.shortName])) ++
        enumMethod (signature language "_toInt: function " [("i", e.shortName)] "number")
          (e.values.flatMap fun v =>
            caseOf ["case ", inQuotes v.name] [line ["return ", toString v.number.toInt, ";"]])
          (cast language "i" "unknown as number"))

mutual

/-- The object of a declaration. -/
def declarationObject (options : Options) (outermost : Bool) : Decl → List Line
  | .enum e => enumObject options.language outermost e
  | .message m children =>
    if m.isMapEntry then []
    else
      comment m.comment ++
        object m.name outermost "" (messageMethods options m ++ nestedObjects options children)

/-- The objects of what is nested in a message. -/
def nestedObjects (options : Options) : List Decl → List Line
  | [] => []
  | d :: rest =>
    (if d.asMapEntry.isNone then .blank :: declarationObject options false d else []) ++
      nestedObjects options rest

end

end ProtoStub.Script
