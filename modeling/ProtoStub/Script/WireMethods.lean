import ProtoStub.Script.Comment
import ProtoStub.Script.Expression
import ProtoStub.Tree.Basic

/-
  The methods of generated messages that write and read the wire format.
-/

namespace ProtoStub.Script

/-- What the runtime writes for a value. -/
def wireOperand (type : Option ScriptType) (expression : String) : Code :=
  match type with
  | some .bigInt => code [expression, ".toString()"]
  | some (.enum target) => code [ref target, "._toInt(", expression, ")"]
  | _ => expression

/-- The value of what the runtime reads by an operation. -/
def wireValue (type : Option ScriptType) (operation : String) : Code :=
  match type with
  | some .bigInt => code ["BigInt(reader.", operation, "())"]
  | some (.enum target) => code [ref target, "._fromInt(reader.", operation, "())"]
  | _ => code ["reader.", operation, "()"]

/-- The key of a map entry as the runtime takes it. -/
def keyOperand (type : Option ScriptType) : String :=
  match type with
  | some .number => "Number(key)"
  | some .boolean => "key === " ++ inQuotes "true"
  | _ => "key"

/-- The statement that writes a field that is no map. -/
def writeStatement (language : Language) (info : FieldInfo) (access : String) : Line :=
  let head := code ["writer.", info.operations.write, "(", toString info.number.toNat, ", "]
  match info.kind.scriptType?, info.repeated with
  | some (.message target), true =>
    line [head, cast language access "any", ", ", ref target, "._writeMessage);"]
  | some (.message target), false => line [head, access, ", ", ref target, "._writeMessage);"]
  | some .bigInt, true => line [head, access, ".map((x) => x.toString()));"]
  | some (.enum target), true => line [head, access, ".map(", ref target, "._toInt));"]
  | type, _ => line [head, wireOperand type access, ");"]

/-- The statement that writes the value of a map entry. -/
def writeEntryValue (value : Field) : Line :=
  let head := code ["mapWriter.", value.info.operations.write, "(2, "]
  match valueType? value with
  | some (.message target) => line [head, "value, ", ref target, "._writeMessage);"]
  | type => line [head, wireOperand type "value", ");"]

/-- The statements that write a map: each entry is a message of a key and a value. -/
def writeMap (number : UInt32) (key value : Field) (access : String) : List Line :=
  block ["for (const [key, value] of Object.entries(", access, ")) \x7b"]
    (block ["writer.writeMessage(", toString number.toNat, ", \x7b\x7d, (_, mapWriter) => \x7b"]
      [line ["mapWriter.", key.info.operations.write, "(1, ", keyOperand (valueType? key), ");"],
        writeEntryValue value]
      "\x7d);")
    "\x7d"

/-- The statements that write a field. -/
def writeField (language : Language) (field : Field) : List Line :=
  block ["if (", writeCondition field (property field) false, ") \x7b"]
    (match field with
    | .map info key value => writeMap info.number key value (property field)
    | .plain info => [writeStatement language info (property field)])
    "\x7d"

/-- The method that writes a message. -/
def writeMethod (language : Language) (m : MessageDecl) : List Line :=
  privateMark ++
    block
      (signature language "_writeMessage: function "
        [("msg", partialType m.shortName), ("writer", runtime .binaryWriter)]
        (runtime .binaryWriter))
      (m.fields.flatMap (writeField language) ++ [line ["return writer;"]])
      "\x7d,"

/-- A case of a switch. -/
def caseOf (label : List Code) (body : List Line) : List Line :=
  block [code label, ": \x7b"] body "\x7d"

/-- The case for fields that are not known. -/
def skipCase : List Line :=
  caseOf ["default"] [line ["reader.skipField();"], line ["break;"]]

/-- The expression that reads several values of one record. -/
def packedValue (type : Option ScriptType) (operation : String) : Code :=
  match type with
  | some .bigInt => code ["reader.", operation, "().map(BigInt)"]
  | some (.enum target) => code ["reader.", operation, "().map(", ref target, "._fromInt)"]
  | _ => code ["reader.", operation, "()"]

/-- The statements that read a field that is no map. A repeated field that can be packed is
read in either form. -/
def readStatements (info : FieldInfo) (access : String) : List Line :=
  match info.kind.scriptType?, info.repeated with
  | some (.message target), false =>
    [line ["const m = ", access, " ?? ", ref target, ".initialize();"],
      line ["reader.readMessage(m, ", ref target, "._readMessage);"],
      line [access, " = m;"]]
  | some (.message target), true =>
    [line ["const m = ", ref target, ".initialize();"],
      line ["reader.readMessage(m, ", ref target, "._readMessage);"],
      line [access, ".push(m);"]]
  | type, true =>
    let push := line [access, ".push(", wireValue type info.operations.read, ");"]
    match info.operations.packedRead with
    | some operation =>
      [.opening "if (reader.isDelimited()) \x7b",
        line [access, ".push(...", packedValue type operation, ");"],
        .middle "\x7d else \x7b",
        push,
        .closing "\x7d"]
    | none => [push]
  | type, false => [line [access, " = ", wireValue type info.operations.read, ";"]]

/-- The expression for the value of a map entry that has none. -/
def entryValueInitial (value : Field) : Code :=
  match initialExpression value.info.initial, valueType? value with
  | some expression, _ => expression
  | none, some (.message target) => code [ref target, ".initialize()"]
  | none, _ => "undefined"

/-- The statement that reads the value of a map entry. -/
def readEntryValue (value : Field) : Line :=
  match valueType? value with
  | some (.message target) =>
    line ["reader.readMessage(entry.value, ", ref target, "._readMessage);"]
  | type => line ["entry.value = ", wireValue type value.info.operations.read, ";"]

/-- The statements that read a map entry. -/
def readEntry (key value : Field) (access : String) : List Line :=
  [line ["const entry = \x7b key: ",
    (initialExpression key.info.initial).getD (inQuotes ""), ", value: ",
    entryValueInitial value, " \x7d;"]] ++
  block ["reader.readMessage(undefined, () => \x7b"]
    (block ["while (reader.nextField()) \x7b"]
      (block ["switch (reader.getFieldNumber()) \x7b"]
        (caseOf ["case 1"]
            [line ["entry.key = ", wireValue (valueType? key) key.info.operations.read, ";"],
              line ["break;"]] ++
          caseOf ["case 2"] [readEntryValue value, line ["break;"]] ++
          skipCase)
        "\x7d")
      "\x7d")
    "\x7d);" ++
  [line [access, "[String(entry.key)] = entry.value;"]]

/-- The statements that read a field. -/
def readField (field : Field) : List Line :=
  match field with
  | .map _ key value => readEntry key value (property field)
  | .plain info => readStatements info (property field)

/-- The case that reads a field. The last member of a oneof that is read wins. -/
def readCase (m : MessageDecl) (field : Field) : List Line :=
  caseOf ["case ", toString field.info.number.toNat]
    (readField field ++
      (m.siblings field).map (fun other => line [property other, " = undefined;"]) ++
      [line ["break;"]])

/-- The method that reads a message. -/
def readMethod (language : Language) (m : MessageDecl) : List Line :=
  privateMark ++
    block
      (signature language "_readMessage: function "
        [("msg", m.shortName), ("reader", runtime .binaryReader)] m.shortName)
      (block ["while (reader.nextField()) \x7b"]
        (line ["const field = reader.getFieldNumber();"] ::
          block ["switch (field) \x7b"] (m.fields.flatMap (readCase m) ++ skipCase) "\x7d")
        "\x7d" ++
        [line ["return msg;"]])
      "\x7d,"

end ProtoStub.Script
