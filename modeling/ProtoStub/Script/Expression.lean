import ProtoStub.Field.Basic
import ProtoStub.Options
import ProtoStub.Script.Line

/-
  Types and expressions of generated modules.
-/

namespace ProtoStub.Script

/-- The type of a single value of a field; a map has no such type. -/
def valueType? : Field → Option ScriptType
  | .plain info => info.kind.scriptType?
  | .map _ _ _ => none

/-- The name of the type of a single value. -/
def typeName : ScriptType → Code
  | .number => "number"
  | .bigInt => "bigint"
  | .boolean => "boolean"
  | .string => "string"
  | .bytes => "Uint8Array"
  | .enum target => ref target
  | .message target => ref target

/-- The type of an element of a field. -/
def elementType : Field → Code
  | .plain info => (info.kind.scriptType?.map typeName).getD []
  | .map _ _ value => code ["Record<string, ", elementType value, ">"]

/-- The type of a field. -/
def fieldType (field : Field) : Code :=
  if field.info.repeated then code [elementType field, "[]"] else elementType field

/-- The type of a message of which fields may be missing. -/
def partialType (name : String) : Code := code ["Partial<", name, ">"]

/-- The expression for what a field holds at first, unless it is unset. -/
def initialExpression : Initial → Option Code
  | .zero => some "0"
  | .bigZero => some "0n"
  | .falsity => some "false"
  | .emptyText => some (inQuotes "")
  | .emptyBytes => some "new Uint8Array()"
  | .enumZero target => some (code [ref target, "._fromInt(0)"])
  | .emptyList => some "[]"
  | .emptyMap => some "\x7b\x7d"
  | .unset => none

/-- Whether a kind is one of the two that have fractions. -/
def isFractional : FieldKind → Bool
  | .double | .float => true
  | _ => false

/-- The property of a message that holds a field. -/
def property (field : Field) : String := "msg." ++ field.info.name

/-- The condition under which a field is written. With implicit presence the zero value is
left out, unless defaults are shown. -/
def writeCondition (field : Field) (access : String) (emitDefaults : Bool) : Code :=
  if field.isMap then
    if emitDefaults then code [access, " != undefined"]
    else code [access, " && Object.keys(", access, ").length"]
  else if field.info.repeated then
    if emitDefaults then code [access, " != undefined"] else code [access, "?.length"]
  else if field.info.optional || field.isMessage || emitDefaults then
    code [access, " != undefined"]
  else
    match valueType? field with
    | some .number =>
      if isFractional field.info.kind then
        code [access, " !== undefined && ", access, " !== 0"]
      else access
    | some .bytes => code [access, "?.length"]
    | some (.enum target) => code [access, " && ", ref target, "._toInt(", access, ")"]
    | _ => access

/-- A name without the question marks at its end. -/
def withoutQuestionMarks (name : String) : String :=
  String.ofList (name.toList.reverse.dropWhile (· = '?')).reverse

/-- A parameter: its name, with a question mark if it may be missing, and its type. -/
def parameter (language : Language) (p : String × Code) : Code :=
  if language.isTyped then code [p.1, ": ", p.2] else withoutQuestionMarks p.1

/-- The head of a function up to the opening brace. -/
def signature (language : Language) (head : Code) (parameters : List (String × Code))
    (result : Code) : List Code :=
  let list := joined ", " (parameters.map (parameter language))
  if language.isTyped && result.text ≠ "" then [head, "(", list, "): ", result, " \x7b"]
  else [head, "(", list, ") \x7b"]

/-- An expression that is taken to be of a type. -/
def cast (language : Language) (expression type : Code) : Code :=
  if language.isTyped then code [expression, " as ", type] else expression

/-- A parameter of any type. -/
def anyParameter (language : Language) (name : String) : Code :=
  if language.isTyped then code ["(", name, ": any)"] else code ["(", name, ")"]

/-- The operator that takes each element of an array through an expression in `x`. -/
def mapped (language : Language) (array : String) (element : Code) : Code :=
  code [array, ".map(", anyParameter language "x", " => ", element, ")"]

/-- The expression that takes each `value` of an object through an expression. -/
def mappedEntries (object : String) (value : Code) : Code :=
  code ["Object.fromEntries(Object.entries(", object, ").map(([key, value]) => [key, ", value,
    "]))"]

end ProtoStub.Script
