import ProtoStub.Binary.Layout
import ProtoStub.Text.Quoted
import ProtoStub.Value.Basic

/-
  Values in diagnostics: the variant with its content, in round brackets.
-/

namespace ProtoStub

/-- Numbers from 1e-4 up to 1e16 are written in full and others show an exponent; of two
shortest decimals that are equally near, the larger is taken. -/
def Value.floatLayout : Binary.Layout := ⟨.up, -4, 15, ""⟩

/-- A number in diagnostics. -/
def Value.floatText (f : Binary.Format) (bits : Nat) : String :=
  if f.isNaN bits then "NaN"
  else if f.isFinite bits then floatLayout.text f bits
  else if f.isNegative bits then "-inf"
  else "inf"

/-- A value of an enum in diagnostics. -/
def EnumValue.text : EnumValue → String
  | named name => "Named(" ++ Text.quoted name ++ ")"
  | unknown number => "Unknown(" ++ toString number.toInt ++ ")"

mutual

/-- A value in diagnostics. -/
def Value.text : Value → String
  | .double x => "Double(" ++ Value.floatText .double x.bits.toNat ++ ")"
  | .float x => "Float(" ++ Value.floatText .single x.bits.toNat ++ ")"
  | .int32 n => "Int32(" ++ toString n.toInt ++ ")"
  | .int64 n => "Int64(" ++ toString n.toInt ++ ")"
  | .uint32 n => "Uint32(" ++ toString n.toNat ++ ")"
  | .uint64 n => "Uint64(" ++ toString n.toNat ++ ")"
  | .bool b => "Bool(" ++ (if b then "true" else "false") ++ ")"
  | .string s => "String(" ++ Text.quoted s ++ ")"
  | .bytes bs => "Bytes(" ++ Text.enclosed "[" "]" (bs.map fun b => toString b.toNat) ++ ")"
  | .enum e => "Enum(" ++ e.text ++ ")"
  | .message m => "Message(" ++ m.text ++ ")"
  | .list items => "List(" ++ Text.enclosed "[" "]" (Value.texts items) ++ ")"
  | .map entries => "Map(" ++ Text.enclosed "\x7b" "\x7d" (Value.entryTexts entries) ++ ")"

/-- A message in diagnostics. -/
def Message.text : Message → String
  | ⟨typeName, fields⟩ =>
    "MessageValue \x7b type_name: " ++ Text.quoted typeName ++ ", fields: " ++
      Text.enclosed "\x7b" "\x7d" (Value.entryTexts fields) ++ " \x7d"

/-- Several values in diagnostics. -/
def Value.texts : List Value → List String
  | [] => []
  | v :: rest => v.text :: Value.texts rest

/-- Values with their keys in diagnostics. -/
def Value.entryTexts : List (String × Value) → List String
  | [] => []
  | (k, v) :: rest => (Text.quoted k ++ ": " ++ v.text) :: Value.entryTexts rest

end

end ProtoStub
