import ProtoStub.Json.Literal

/-
  Tokens of JSON. One pass over the characters with a small state: between tokens, inside
  a string with or without an escape, inside a number, or inside a word.
-/

namespace ProtoStub.Json

/-- A token. -/
inductive Token where
  | openArray
  | closeArray
  | openObject
  | closeObject
  | comma
  | colon
  /-- A string, a number or one of the three words. -/
  | scalar (value : Json)

/-- Where the lexer stands. Characters of the current token are in reverse. -/
inductive LexState where
  | between
  | number (chars : List Char)
  | word (chars : List Char)
  | string (chars : List Char)
  /-- After a backslash. -/
  | escape (chars : List Char)
  /-- Inside `\u` with the digits read so far and the leading surrogate before it. -/
  | hex (chars : List Char) (lead : Option Nat) (count value : Nat)
  /-- After a leading surrogate, which needs another escape: no backslash so far. -/
  | surrogate (chars : List Char) (lead : Nat)
  /-- The same after the backslash. -/
  | surrogateEscape (chars : List Char) (lead : Nat)

/-- The value of a hexadecimal digit. -/
def hexValue? (c : Char) : Option Nat :=
  if '0' ≤ c ∧ c ≤ '9' then some (c.toNat - 48)
  else if 'a' ≤ c ∧ c ≤ 'f' then some (c.toNat - 87)
  else if 'A' ≤ c ∧ c ≤ 'F' then some (c.toNat - 55)
  else none

/-- White space between tokens. -/
def isSpace (c : Char) : Bool :=
  c = ' ' || c = '\n' || c = '\t' || c = '\r'

/-- A character of a number literal. -/
def isNumberChar (c : Char) : Bool :=
  ('0' ≤ c && c ≤ '9') || c = '-' || c = '+' || c = '.' || c = 'e' || c = 'E'

/-- The document of a word. -/
def word? (chars : List Char) : Option Json :=
  match String.ofList chars with
  | "null" => some .null
  | "true" => some (.bool true)
  | "false" => some (.bool false)
  | _ => none

/-- The character of a short escape. -/
def shortEscape? : Char → Option Char
  | '"' => some '"'
  | '\\' => some '\\'
  | '/' => some '/'
  | 'b' => some '\x08'
  | 'f' => some '\x0c'
  | 'n' => some '\n'
  | 'r' => some '\r'
  | 't' => some '\t'
  | _ => none

/-- The state after four hexadecimal digits. A surrogate must be part of a pair. -/
def afterHex (chars : List Char) (lead : Option Nat) (value : Nat) : Option LexState :=
  match lead with
  | some high =>
    if 0xDC00 ≤ value ∧ value ≤ 0xDFFF then
      some (.string (Char.ofNat (0x10000 + (high - 0xD800) * 0x400 + (value - 0xDC00)) :: chars))
    else none
  | none =>
    if 0xD800 ≤ value ∧ value ≤ 0xDBFF then some (.surrogate chars value)
    else if 0xDC00 ≤ value ∧ value ≤ 0xDFFF then none
    else some (.string (Char.ofNat value :: chars))

/-- A character that starts or is a token. -/
def startToken (c : Char) : Option (List Token × LexState) :=
  if isSpace c then some ([], .between)
  else
    match c with
    | '[' => some ([.openArray], .between)
    | ']' => some ([.closeArray], .between)
    | '\x7b' => some ([.openObject], .between)
    | '\x7d' => some ([.closeObject], .between)
    | ',' => some ([.comma], .between)
    | ':' => some ([.colon], .between)
    | '"' => some ([], .string [])
    | c =>
      if isNumberChar c then some ([], .number [c])
      else if c.isAlpha then some ([], .word [c])
      else none

/-- The token that ends where the lexer stands, if it may end there. -/
def endToken : LexState → Option (List Token)
  | .between => some []
  | .number chars => (numberOfChars? chars.reverse).map fun n => [.scalar (.number n)]
  | .word chars => (word? chars.reverse).map fun j => [.scalar j]
  | _ => none

/-- One character: the tokens that it completes and the new state. -/
def lexStep (state : LexState) (c : Char) : Option (List Token × LexState) :=
  match state with
  | .between => startToken c
  | .number chars =>
    if isNumberChar c then some ([], .number (c :: chars))
    else do
      let ended ← endToken state
      let (tokens, next) ← startToken c
      return (ended ++ tokens, next)
  | .word chars =>
    if c.isAlpha then some ([], .word (c :: chars))
    else do
      let ended ← endToken state
      let (tokens, next) ← startToken c
      return (ended ++ tokens, next)
  | .string chars =>
    if c = '"' then some ([.scalar (.string (String.ofList chars.reverse))], .between)
    else if c = '\\' then some ([], .escape chars)
    else if c.toNat < 0x20 then none
    else some ([], .string (c :: chars))
  | .escape chars =>
    if c = 'u' then some ([], .hex chars none 0 0)
    else (shortEscape? c).map fun e => ([], .string (e :: chars))
  | .hex chars lead count value => do
    let d ← hexValue? c
    let value := value * 16 + d
    if count = 3 then return ([], ← afterHex chars lead value)
    else return ([], .hex chars lead (count + 1) value)
  | .surrogate chars lead =>
    if c = '\\' then some ([], .surrogateEscape chars lead) else none
  | .surrogateEscape chars lead =>
    if c = 'u' then some ([], .hex chars (some lead) 0 0) else none

/-- The tokens of the characters that follow a state. -/
def lexFrom (state : LexState) : List Char → Option (List Token)
  | [] => endToken state
  | c :: cs =>
    match lexStep state c with
    | none => none
    | some (tokens, next) => (lexFrom next cs).map (tokens ++ ·)

end ProtoStub.Json
