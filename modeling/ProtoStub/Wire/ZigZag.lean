/-
  Zigzag codes interleave the signs: 0, -1, 1, -2, 2, … become 0, 1, 2, 3, 4, …, so that
  numbers close to zero have short encodings whatever their sign.
-/

namespace ProtoStub.Wire

/-- The zigzag code of an integer. -/
def zigzag (n : Int) : Nat :=
  if 0 ≤ n then (2 * n).toNat else (-2 * n - 1).toNat

/-- The integer of a zigzag code. -/
def unzigzag (n : Nat) : Int :=
  if n % 2 = 0 then (n / 2 : Nat) else -((n / 2 : Nat) : Int) - 1

@[simp] theorem unzigzag_zigzag (n : Int) : unzigzag (zigzag n) = n := by
  unfold zigzag unzigzag
  split <;> split <;> omega

@[simp] theorem zigzag_unzigzag (n : Nat) : zigzag (unzigzag n) = n := by
  unfold zigzag unzigzag
  split <;> split <;> omega

/-- The code of a 32-bit integer, which is below 2^32. -/
def zigzag32 (n : Int32) : UInt64 := UInt64.ofNat (zigzag n.toInt)

/-- The code of a 64-bit integer. -/
def zigzag64 (n : Int64) : UInt64 := UInt64.ofNat (zigzag n.toInt)

/-- The 32-bit integer of a code; only the low 32 bits of the code count. -/
def unzigzag32 (v : UInt64) : Int32 := Int32.ofInt (unzigzag (v.toNat % UInt32.size))

/-- The 64-bit integer of a code. -/
def unzigzag64 (v : UInt64) : Int64 := Int64.ofInt (unzigzag v.toNat)

end ProtoStub.Wire
