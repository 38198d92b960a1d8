import ProtoStub.Text.Printable

/-
  Quoted texts, as diagnostics show them: between double quotes, with a backslash
  before a quote and a backslash, a short escape for the common controls, and the
  code point of any other character that does not print.
-/

namespace ProtoStub.Text

/-- The lower-case hexadecimal digits of a number, without leading zeros. -/
def hexDigits (n : Nat) : List Char :=
  Nat.toDigits 16 n

/-- One character inside a quoted text. -/
def quoteChar (c : Char) : List Char :=
  match c with
  | '"' => ['\\', '"']
  | '\\' => ['\\', '\\']
  | '\n' => ['\\', 'n']
  | '\r' => ['\\', 'r']
  | '\t' => ['\\', 't']
  | '\x00' => ['\\', '0']
  | c => if isPrintable c then [c] else ['\\', 'u', '\x7b'] ++ hexDigits c.toNat ++ ['\x7d']

/-- A text between double quotes. -/
def quoted (s : String) : String :=
  String.ofList ('"' :: s.toList.flatMap quoteChar ++ ['"'])

/-- The items of a list between an opening and a closing mark, separated by commas. -/
def enclosed (opening closing : String) (items : List String) : String :=
  opening ++ ", ".intercalate items ++ closing

/-- A list of quoted texts in square brackets. -/
def quotedList (items : List String) : String :=
  enclosed "[" "]" (items.map quoted)

end ProtoStub.Text
