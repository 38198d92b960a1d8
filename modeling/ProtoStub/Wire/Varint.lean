import ProtoStub.Wire.Cursor

/-
  Variable-length integers: seven bits in a byte, the least significant first, with
  the top bit set in every byte but the last. At most ten bytes are read, and bits
  past the sixty-fourth are dropped.
-/

namespace ProtoStub.Wire

/-- The bytes of a number, as few as possible. -/
def varintBytes (n : Nat) : List UInt8 :=
  if n < 128 then [UInt8.ofNat n]
  else UInt8.ofNat (n % 128 + 128) :: varintBytes (n / 128)
termination_by n
decreasing_by omega

/-- The bytes of a 64-bit number. -/
def encodeVarint (v : UInt64) : List UInt8 :=
  varintBytes v.toNat

/-- The number that the bytes write when at most `limit` of them may be read, and how many
bytes that took. -/
def varintValue : (limit : Nat) → List UInt8 → Option (Nat × Nat)
  | 0, _ => none
  | _, [] => none
  | limit + 1, b :: rest =>
    if b < 128 then some (b.toNat, 1)
    else (varintValue limit rest).map fun r => (b.toNat % 128 + 128 * r.1, r.2 + 1)

/-- The most bytes a variable-length integer takes. -/
def varintLimit : Nat := 10

/-- The 64-bit number at the start of the bytes, and how many bytes it takes. -/
def decodeVarint (bytes : List UInt8) : Option (UInt64 × Nat) :=
  (varintValue varintLimit bytes).map fun r => (UInt64.ofNat r.1, r.2)

/-- Where a sequence of bytes without a variable-length integer is found out. -/
def varintFaultOffset (bytes : List UInt8) : Nat :=
  min varintLimit bytes.length

/-- Reads a variable-length integer and moves past it. -/
def Cursor.varint? (c : Cursor) : Option (UInt64 × Cursor) :=
  (decodeVarint c.bytes).map fun r => (r.1, c.advance r.2)

/-- A number that is read takes at least one byte, and no more than there are. -/
theorem varintValue_used {limit : Nat} {bytes : List UInt8} {n used : Nat}
    (h : varintValue limit bytes = some (n, used)) : 1 ≤ used ∧ used ≤ bytes.length := by
  fun_induction varintValue limit bytes generalizing n used with
  | case1 => simp at h
  | case2 => simp at h
  | case3 limit b rest hb =>
    simp only [Option.some.injEq, Prod.mk.injEq] at h
    simp [← h.2]
  | case4 limit b rest hb ih =>
    obtain ⟨⟨m, k⟩, hr, he⟩ := Option.map_eq_some_iff.1 h
    have := ih hr
    simp only [Prod.mk.injEq] at he
    simp only [List.length_cons]
    omega

/-- Reading a variable-length integer moves the cursor. -/
theorem Cursor.varint?_advance {c c' : Cursor} {v : UInt64} (h : c.varint? = some (v, c')) :
    ∃ used, 1 ≤ used ∧ used ≤ c.size ∧ c' = c.advance used := by
  simp only [Cursor.varint?, decodeVarint, Option.map_map, Option.map_eq_some_iff,
    Function.comp_apply, Prod.mk.injEq, Prod.exists] at h
  obtain ⟨n, used, hr, _, hc⟩ := h
  have := varintValue_used hr
  exact ⟨used, this.1, this.2, hc.symm⟩

end ProtoStub.Wire
