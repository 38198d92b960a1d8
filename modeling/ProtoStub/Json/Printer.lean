import ProtoStub.Binary.Layout
import ProtoStub.Json.Basic

/-
  Printing JSON, without any white space. Only what JSON forbids inside a string is
  escaped.
-/

namespace ProtoStub.Json

/-- Numbers from 1e-5 up to 1e16 are written in full and others show a signed exponent; of
two shortest decimals that are equally near, the even one is taken. -/
def numberLayout : Binary.Layout := ⟨.toEven, -5, 15, "+"⟩

/-- A number below sixteen as a lower-case hexadecimal digit. -/
def hexDigit (n : Nat) : Char :=
  Char.ofNat (if n < 10 then 48 + n else 87 + n)

/-- One character inside a JSON string. -/
def escapeChar (c : Char) : List Char :=
  match c with
  | '"' => ['\\', '"']
  | '\\' => ['\\', '\\']
  | '\n' => ['\\', 'n']
  | '\r' => ['\\', 'r']
  | '\t' => ['\\', 't']
  | '\x08' => ['\\', 'b']
  | '\x0c' => ['\\', 'f']
  | c =>
    if c.toNat < 0x20 then
      ['\\', 'u', '0', '0', hexDigit (c.toNat / 16), hexDigit (c.toNat % 16)]
    else [c]

/-- A JSON string. -/
def quote (s : String) : String :=
  String.ofList ('"' :: s.toList.flatMap escapeChar ++ ['"'])

/-- A JSON number. -/
def numberText : JsonNumber → String
  | .natural n => toString n.toNat
  | .negative n => toString n.toInt
  | .fractional x => numberLayout.text .double x.bits.toNat

mutual

/-- The text of a document. -/
def print : Json → String
  | null => "null"
  | bool true => "true"
  | bool false => "false"
  | number n => numberText n
  | string s => quote s
  | array items => "[" ++ ",".intercalate (printAll items) ++ "]"
  | object members => "\x7b" ++ ",".intercalate (printMembers members) ++ "\x7d"

/-- The texts of several documents. -/
def printAll : List Json → List String
  | [] => []
  | j :: rest => print j :: printAll rest

/-- The texts of the members of an object. -/
def printMembers : List (String × Json) → List String
  | [] => []
  | (k, j) :: rest => (quote k ++ ":" ++ print j) :: printMembers rest

end

end ProtoStub.Json
