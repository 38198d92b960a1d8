import ProtoStub.Binary.Number
import ProtoStub.Text.Numeral

/-
  Reading decimals. A numeric text is read to the nearest double. A literal of a JSON
  document is read by one multiplication or division: its leading digits, as many as
  fit 64 bits, become a double that is scaled by a power of ten.
-/

namespace ProtoStub

open Binary (Format)

namespace Binary64

/-- The bits of the magnitude nearest to `m * 10 ^ e`. Far outside the range of doubles the
power of ten is not computed. -/
def decimalMagnitude (m : Nat) (e : Int) : Nat :=
  let size : Int := (Nat.toDigits 10 m).length + e
  if m = 0 ∨ size < -400 then 0
  else if 400 < size then Format.double.infinity
  else if 0 ≤ e then Format.double.ofRatio (m * Nat.pow 10 e.toNat) 1
  else Format.double.ofRatio m (Nat.pow 10 (-e).toNat)

/-- The bits of the magnitude nearest to a product. -/
def mulMagnitude (a b : Nat) : Nat :=
  let (m, e) := Format.double.split a
  let (n, k) := Format.double.split b
  Format.double.ofScaled (m * n) 1 (e + k)

/-- The bits of the magnitude nearest to a quotient. -/
def divMagnitude (a b : Nat) : Nat :=
  let (m, e) := Format.double.split a
  let (n, k) := Format.double.split b
  Format.double.ofScaled m n (e - k)

/-- The bits of the power of ten nearest to `10 ^ k`. -/
def powerOfTen (k : Nat) : Nat := Format.double.ofRatio (Nat.pow 10 k) 1

/-- The largest power of ten that is a double. -/
def greatestPower : Nat := 308

/-- Divides by `10 ^ k`, in steps of the largest power of ten. -/
def divideByPower (magnitude k : Nat) : Nat :=
  if k ≤ greatestPower then divMagnitude magnitude (powerOfTen k)
  else if magnitude = 0 then 0
  else divideByPower (divMagnitude magnitude (powerOfTen greatestPower)) (k - greatestPower)
termination_by k
decreasing_by
  have : 0 < greatestPower := by decide
  omega

/-- The bits of `m * 10 ^ e` in double arithmetic, unless it is too large. -/
def scaledMagnitude? (m : Nat) (e : Int) : Option Nat :=
  let start := Format.double.ofRatio m 1
  if e < 0 then some (divideByPower start (-e).toNat)
  else if e.toNat ≤ greatestPower then
    let result := mulMagnitude start (powerOfTen e.toNat)
    if result < Format.double.infinity then some result else none
  else if start = 0 then some 0
  else none

end Binary64

namespace Text

/-- The leading digits of a text and what follows them. -/
def spanDigits (cs : List Char) : List Char × List Char :=
  cs.span fun c => (digit? c).isSome

/-- The value of an exponent: a sign, which may be missing, and at least one digit. -/
def exponent? (cs : List Char) : Option Int :=
  match cs with
  | '-' :: cs => (digits? cs).map fun n => -(n : Int)
  | '+' :: cs => (digits? cs).map fun n => (n : Int)
  | cs => (digits? cs).map fun n => (n : Int)

/-- The magnitude of an unsigned decimal: digits with a point among them or at either end,
and an exponent, which may be missing. -/
def decimalMagnitude? (cs : List Char) : Option Nat :=
  let (whole, rest) := spanDigits cs
  let (fraction, rest) :=
    match rest with
    | '.' :: rest => spanDigits rest
    | rest => ([], rest)
  match digits? (whole ++ fraction) with
  | none => none
  | some m =>
    match rest with
    | [] => some (Binary64.decimalMagnitude m (-fraction.length))
    | c :: rest =>
      if c = 'e' ∨ c = 'E' then
        (exponent? rest).map fun e => Binary64.decimalMagnitude m (e - fraction.length)
      else none

/-- The magnitude of an unsigned numeric text, which may also be the name of an infinity or
of what is no number, in any case. -/
def magnitude? (cs : List Char) : Option Nat :=
  match String.ofList (cs.map Char.toLower) with
  | "inf" | "infinity" => some Format.double.infinity
  | "nan" => some Format.double.notANumber
  | _ => decimalMagnitude? cs

/-- The double nearest to a numeric text. -/
def double? (s : String) : Option Binary64 :=
  match s.toList with
  | '-' :: cs => (magnitude? cs).map (Binary64.ofMagnitude true)
  | '+' :: cs => (magnitude? cs).map (Binary64.ofMagnitude false)
  | cs => (magnitude? cs).map (Binary64.ofMagnitude false)

end Text
end ProtoStub
