/-
  Binary floating-point numbers by their bits. A format has a number of significand
  bits and of exponent bits; the bits of a magnitude, read as a number, count the
  representable magnitudes from zero up, so rounding a quotient is one division in
  natural numbers.
-/

namespace ProtoStub.Binary

/-- A binary interchange format. -/
structure Format where
  /-- Bits of the significand, the leading one included. -/
  precision : Nat
  exponentBits : Nat
  deriving DecidableEq, Repr

/-- Single precision, in 32 bits. -/
def Format.single : Format := ⟨24, 8⟩

/-- Double precision, in 64 bits. -/
def Format.double : Format := ⟨53, 11⟩

namespace Format

/-- The exponent of the unit in which the smallest magnitudes are counted. -/
def minExponent (f : Format) : Int :=
  3 - (Nat.pow 2 (f.exponentBits - 1) : Nat) - f.precision

/-- The weight of the sign bit. -/
def signBit (f : Format) : Nat := Nat.pow 2 (f.precision - 1 + f.exponentBits)

/-- The bits of positive infinity, above those of every finite magnitude. -/
def infinity (f : Format) : Nat := (Nat.pow 2 f.exponentBits - 1) * Nat.pow 2 (f.precision - 1)

/-- The bits of a quiet number that is none. -/
def notANumber (f : Format) : Nat := f.infinity + Nat.pow 2 (f.precision - 2)

/-- The bits of a magnitude, without the sign. -/
def magnitude (f : Format) (bits : Nat) : Nat := bits % f.signBit

/-- Whether the sign bit is set. -/
def isNegative (f : Format) (bits : Nat) : Bool := f.signBit ≤ bits

/-- Whether the bits stand for no number. -/
def isNaN (f : Format) (bits : Nat) : Bool := f.infinity < f.magnitude bits

/-- Whether the bits stand for a finite number. -/
def isFinite (f : Format) (bits : Nat) : Bool := f.magnitude bits < f.infinity

/-- A significand `m` and an exponent `e` with the value `m * 2 ^ e` of a finite magnitude. -/
def split (f : Format) (bits : Nat) : Nat × Int :=
  let unit := Nat.pow 2 (f.precision - 1)
  let magnitude := f.magnitude bits
  if magnitude < unit then (magnitude, f.minExponent)
  else (unit + magnitude % unit, f.minExponent + (magnitude / unit : Nat) - 1)

/-- Gives a magnitude a sign. -/
def withSign (f : Format) (negative : Bool) (magnitude : Nat) : Nat :=
  if negative then f.signBit + magnitude else magnitude

end Format

/-- The natural number nearest to a quotient; a half goes to the even neighbour. -/
def roundQuotient (num den : Nat) : Nat :=
  let quotient := num / den
  let twice := 2 * (num % den)
  if twice < den then quotient
  else if den < twice then quotient + 1
  else quotient + quotient % 2

/-- A numerator and a denominator of `num / den * 2 ^ e`. -/
def scaleRatio (num den : Nat) (e : Int) : Nat × Nat :=
  if 0 ≤ e then (num * Nat.pow 2 e.toNat, den) else (num, den * Nat.pow 2 (-e).toNat)

/-- The exponent of the largest power of two that is at most a positive quotient. -/
def floorLog2 (num den : Nat) : Int :=
  let guess : Int := (Nat.log2 num : Int) - (Nat.log2 den : Int)
  let (n, d) := scaleRatio num den (-guess)
  if d ≤ n then guess else guess - 1

/-- The bits of the magnitude nearest to `num / den`; what is too large becomes infinity. -/
def Format.ofRatio (f : Format) (num den : Nat) : Nat :=
  if num = 0 then 0
  else
    let exponent := max f.minExponent (floorLog2 num den - (f.precision - 1 : Nat))
    let (n, d) := scaleRatio num den (-exponent)
    min f.infinity
      ((exponent - f.minExponent).toNat * Nat.pow 2 (f.precision - 1) + roundQuotient n d)

/-- The bits of the magnitude nearest to `num / den * 2 ^ e`. -/
def Format.ofScaled (f : Format) (num den : Nat) (e : Int) : Nat :=
  let (n, d) := scaleRatio num den e
  f.ofRatio n d

end ProtoStub.Binary
