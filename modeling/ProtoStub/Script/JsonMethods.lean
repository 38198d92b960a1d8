import ProtoStub.Script.Comment
import ProtoStub.Script.Expression
import ProtoStub.Tree.Basic

/-
  The methods of generated messages that write and read JSON.
-/

namespace ProtoStub.Script

/-- The expression for the JSON form of a value, unless the value is its own form. -/
def jsonForm? (field : Field) (expression : String) : Option Code :=
  match valueType? field with
  | some .number =>
    if isFractional field.info.kind then
      some (code ["(Number.isFinite(", expression, ") ? ", expression, " : String(", expression,
        "))"])
    else none
  | some .bigInt => some (code [expression, ".toString()"])
  | some .bytes => some (code [runtime .base64Encoder, "(", expression, ")"])
  | some (.message target) => some (code [ref target, "._writeMessageJSON(", expression, ")"])
  | _ => none

/-- The expression for the value of a JSON form, unless the form is the value. -/
def ofJsonForm? (field : Field) (expression : String) : Option Code :=
  match valueType? field with
  | some .number => some (code ["Number(", expression, ")"])
  | some .bigInt => some (code ["BigInt(", expression, ")"])
  | some .bytes => some (code [runtime .base64Decoder, "(", expression, ")"])
  | some (.enum target) =>
    some (code ["(typeof ", expression, " === ", inQuotes "number", " ? ", ref target,
      "._fromInt(", expression, ") : ", expression, ")"])
  | some (.message target) =>
    some (code [ref target, "._readMessageJSON(", ref target, ".initialize(), ", expression, ")"])
  | _ => none

/-- The expression for the JSON form of a field. -/
def fieldToJson (language : Language) (field : Field) (access : String) : Code :=
  match field with
  | .map _ _ value =>
    match jsonForm? value "value" with
    | none => code ["\x7b ...", access, " \x7d"]
    | some form => mappedEntries access form
  | .plain info =>
    if info.repeated then
      match jsonForm? field "x" with
      | none => access
      | some form => mapped language access form
    else (jsonForm? field access).getD access

/-- The expression for a field from its JSON form. -/
def fieldOfJson (language : Language) (field : Field) (json : String) : Code :=
  match field with
  | .map _ _ value =>
    match ofJsonForm? value "value" with
    | none => code ["\x7b ...", json, " \x7d"]
    | some form => mappedEntries json form
  | .plain info =>
    if info.repeated then
      match ofJsonForm? field "x" with
      | none => code ["[...", json, "]"]
      | some form => mapped language json form
    else
      match valueType? field with
      | some (.message target) =>
        code [ref target, "._readMessageJSON(", property field, " ?? ", ref target,
          ".initialize(), ", json, ")"]
      | _ => (ofJsonForm? field json).getD json

/-- The member of a JSON object with a name. -/
def jsonMember (name : String) : String := "json[" ++ inQuotes name ++ "]"

/-- The expression that finds a field in a JSON object. -/
def jsonLookup (info : FieldInfo) : String := " ?? ".intercalate (info.readNames.map jsonMember)

/-- The statements that write a field. -/
def writeFieldJson (options : Options) (field : Field) : List Line :=
  block ["if (", writeCondition field (property field) options.emitDefaults, ") \x7b"]
    [line [jsonMember (field.info.outputName options.protoNames), " = ",
      fieldToJson options.language field (property field), ";"]]
    "\x7d"

/-- The method that writes a message. -/
def writeJsonMethod (options : Options) (m : MessageDecl) : List Line :=
  privateMark ++
    block
      (signature options.language "_writeMessageJSON: function "
        [("msg", partialType m.shortName)] "Record<string, unknown>")
      (line [if options.language.isTyped then "const json: Record<string, unknown> = \x7b\x7d;"
          else "const json = \x7b\x7d;"] ::
        m.fields.flatMap (writeFieldJson options) ++ [line ["return json;"]])
      "\x7d,"

/-- The variable that holds the JSON form of a field. -/
def jsonVariable (info : FieldInfo) : String := "_" ++ info.name ++ "_"

/-- The statements that read a field. -/
def readFieldJson (language : Language) (field : Field) : List Line :=
  line ["const ", jsonVariable field.info, " = ", jsonLookup field.info, ";"] ::
    block ["if (", jsonVariable field.info, " != undefined) \x7b"]
      [line [property field, " = ", fieldOfJson language field (jsonVariable field.info), ";"]]
      "\x7d"

/-- The method that reads a message. -/
def readJsonMethod (language : Language) (m : MessageDecl) : List Line :=
  privateMark ++
    block
      (signature language "_readMessageJSON: function "
        [("msg", m.shortName), ("json", "any")] m.shortName)
      (m.fields.flatMap (readFieldJson language) ++ [line ["return msg;"]])
      "\x7d,"

end ProtoStub.Script
