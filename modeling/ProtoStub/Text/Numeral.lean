/-
  Decimal integers in text: an optional sign and at least one ASCII digit, nothing
  else. An unsigned numeral takes a plus sign but no minus sign.
-/

namespace ProtoStub.Text

/-- The value of an ASCII digit. -/
def digit? (c : Char) : Option Nat :=
  if '0' ≤ c ∧ c ≤ '9' then some (c.toNat - 48) else none

/-- The number that digits write after the number `acc` was written. -/
def digitsFrom (acc : Nat) : List Char → Option Nat
  | [] => some acc
  | c :: cs => (digit? c).bind fun d => digitsFrom (10 * acc + d) cs

/-- The number that at least one digit writes. -/
def digits? : List Char → Option Nat
  | [] => none
  | cs => digitsFrom 0 cs

/-- A numeral without a minus sign. -/
def natural? (s : String) : Option Nat :=
  match s.toList with
  | '+' :: cs => digits? cs
  | cs => digits? cs

/-- A numeral with an optional sign. -/
def integer? (s : String) : Option Int :=
  match s.toList with
  | '-' :: cs => (digits? cs).map fun n => -(n : Int)
  | '+' :: cs => (digits? cs).map fun n => (n : Int)
  | cs => (digits? cs).map fun n => (n : Int)

end ProtoStub.Text
