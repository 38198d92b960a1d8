import ProtoStub.Binary.Reading
import ProtoStub.Json.Basic

/-
  Number literals of JSON: a minus sign, digits without needless zeros in front, a point
  with digits after it, and an exponent, of which only the digits are mandatory.
-/

namespace ProtoStub.Json

/-- The parts of a number literal. -/
structure Literal where
  negative : Bool
  whole : List Char
  /-- The digits after the point; none of them if there is no point. -/
  fraction : List Char
  /-- The exponent, if there is one. -/
  exponent : Option Int
  deriving DecidableEq, Repr

/-- The exponent part at the end of a literal. -/
def literalExponent? : List Char → Option (Option Int)
  | [] => some none
  | c :: rest => if c = 'e' ∨ c = 'E' then (Text.exponent? rest).map some else none

/-- What follows the whole part of a literal. -/
def literalTail? (negative : Bool) (whole : List Char) : List Char → Option Literal
  | '.' :: rest =>
    match Text.spanDigits rest with
    | ([], _) => none
    | (fraction, rest) =>
      (literalExponent? rest).map fun e => ⟨negative, whole, fraction, e⟩
  | rest => (literalExponent? rest).map fun e => ⟨negative, whole, [], e⟩

/-- The parts of an unsigned literal. -/
def unsignedLiteral? (negative : Bool) (cs : List Char) : Option Literal :=
  match Text.spanDigits cs with
  | ([], _) => none
  | ('0' :: _ :: _, _) => none
  | (whole, rest) => literalTail? negative whole rest

/-- The parts of a literal. -/
def literal? : List Char → Option Literal
  | '-' :: cs => unsignedLiteral? true cs
  | cs => unsignedLiteral? false cs

/-- The largest significand. -/
def maxSignificand : Nat := UInt64.size - 1

/-- Takes up the digits of a whole part as long as they fit, and counts the rest. -/
def takeWhole (significand : Nat) : List Char → Nat × Nat
  | [] => (significand, 0)
  | c :: cs =>
    let next := 10 * significand + (c.toNat - 48)
    if next ≤ maxSignificand then takeWhole next cs else (significand, cs.length + 1)

/-- Takes up the digits of a fraction as long as they fit, and counts them. -/
def takeFraction (significand : Nat) : List Char → Nat × Nat
  | [] => (significand, 0)
  | c :: cs =>
    let next := 10 * significand + (c.toNat - 48)
    if next ≤ maxSignificand then
      let (n, count) := takeFraction next cs
      (n, count + 1)
    else (significand, 0)

namespace Literal

/-- The value of a literal as a double, unless it is too large. -/
def toDouble? (l : Literal) : Option Binary64 :=
  let (whole, dropped) := takeWhole 0 l.whole
  let (significand, places) := takeFraction whole l.fraction
  let exponent : Int := dropped - places + l.exponent.getD 0
  (Binary64.scaledMagnitude? significand exponent).map (Binary64.ofMagnitude l.negative)

/-- The number of a literal. An integer that fits 64 bits stays one; minus zero does not. -/
def toNumber? (l : Literal) : Option JsonNumber :=
  match l.fraction, l.exponent with
  | [], none =>
    let n : Nat := l.whole.foldl (fun n c => 10 * n + (c.toNat - 48)) 0
    if l.negative then
      if 0 < n ∧ Int64.minValue.toInt ≤ -(n : Int) then some (.negative (Int64.ofInt (-(n : Int))))
      else l.toDouble?.map .fractional
    else if n ≤ maxSignificand then some (.natural (UInt64.ofNat n))
    else l.toDouble?.map .fractional
  | _, _ => l.toDouble?.map .fractional

end Literal

/-- The number that the characters of a literal write. -/
def numberOfChars? (cs : List Char) : Option JsonNumber :=
  (literal? cs).bind Literal.toNumber?

end ProtoStub.Json
