import ProtoStub.Binary.Format

/-
  Single and double precision numbers, kept as their bits so that every number that is
  none survives a trip through the codec unchanged.
-/

namespace ProtoStub

open Binary (Format)

/-- A double precision number. -/
structure Binary64 where
  bits : UInt64
  deriving DecidableEq, Repr

/-- A single precision number. -/
structure Binary32 where
  bits : UInt32
  deriving DecidableEq, Repr

namespace Binary64

/-- The number with a sign and the bits of a magnitude. -/
def ofMagnitude (negative : Bool) (magnitude : Nat) : Binary64 :=
  ⟨UInt64.ofNat (Format.double.withSign negative magnitude)⟩

/-- Positive zero. -/
def zero : Binary64 := ⟨0⟩

/-- A number that is none. -/
def nan : Binary64 := ofMagnitude false Format.double.notANumber

/-- An infinity. -/
def infinity (negative : Bool) : Binary64 := ofMagnitude negative Format.double.infinity

/-- Whether the sign bit is set. -/
def isNegative (x : Binary64) : Bool := Format.double.isNegative x.bits.toNat

/-- Whether this is no number. -/
def isNaN (x : Binary64) : Bool := Format.double.isNaN x.bits.toNat

/-- Whether this is a finite number. -/
def isFinite (x : Binary64) : Bool := Format.double.isFinite x.bits.toNat

/-- Whether this is a zero of either sign. -/
def isZero (x : Binary64) : Bool := Format.double.magnitude x.bits.toNat = 0

/-- The number nearest to an integer. -/
def ofInt (n : Int) : Binary64 :=
  ofMagnitude (n < 0) (Format.double.ofRatio n.natAbs 1)

/-- The integer that a finite number without a fractional part is. -/
def toInt? (x : Binary64) : Option Int :=
  if x.isFinite then
    let (m, e) := Format.double.split x.bits.toNat
    let (n, d) := Binary.scaleRatio m 1 e
    if n % d = 0 then
      some (if x.isNegative then -((n / d : Nat) : Int) else (n / d : Nat))
    else none
  else none

/-- The single precision number nearest to a number. -/
def narrow (x : Binary64) : Binary32 :=
  let magnitude :=
    if x.isNaN then Format.single.notANumber
    else if x.isFinite then
      let (m, e) := Format.double.split x.bits.toNat
      Format.single.ofScaled m 1 e
    else Format.single.infinity
  ⟨UInt32.ofNat (Format.single.withSign x.isNegative magnitude)⟩

end Binary64

namespace Binary32

/-- Positive zero. -/
def zero : Binary32 := ⟨0⟩

/-- Whether the sign bit is set. -/
def isNegative (x : Binary32) : Bool := Format.single.isNegative x.bits.toNat

/-- Whether this is no number. -/
def isNaN (x : Binary32) : Bool := Format.single.isNaN x.bits.toNat

/-- Whether this is a finite number. -/
def isFinite (x : Binary32) : Bool := Format.single.isFinite x.bits.toNat

/-- Whether this is a zero of either sign. -/
def isZero (x : Binary32) : Bool := Format.single.magnitude x.bits.toNat = 0

/-- The same number in double precision. -/
def widen (x : Binary32) : Binary64 :=
  let magnitude :=
    if x.isNaN then Format.double.notANumber
    else if x.isFinite then
      let (m, e) := Format.single.split x.bits.toNat
      Format.double.ofScaled m 1 e
    else Format.double.infinity
  Binary64.ofMagnitude x.isNegative magnitude

end Binary32
end ProtoStub
