import Mathlib
import ProtoStub.Proofs.WireValues

/-!
# Variable-length integers

A variable-length integer ends at the first byte whose top bit is clear. The bytes up to there are
the digits of a number to the base 128, the least significant first (`septetSum`), and 64 bits of
the number count. `decodeVarint_eq` says so of the reader in one equation.

The writer makes the digits that a number has and no more: it takes at most `k` bytes exactly for
the numbers below `128 ^ k` (`length_varintBytes_le_iff`). Since `k` bytes can only be read as such
a number, no bytes that are read as a number are fewer than those that are written for it, also
where bits past the sixty-fourth are dropped.
-/

namespace ProtoStub.Wire

/-! ## Digits -/

/-- Whether the top bit of a byte is clear. -/
def topBitClear (b : UInt8) : Bool := !b.toNat.testBit 7

theorem topBitClear_eq (b : UInt8) : topBitClear b = decide (b < 128) := by
  have hb : b.toNat < 256 := b.toNat_lt
  have hlt : b < 128 ↔ b.toNat < 128 := UInt8.lt_iff_toNat_lt
  rw [topBitClear, Nat.testBit_eq_decide_div_mod_eq, ← decide_not, decide_eq_decide, hlt]
  omega

/-- The number that the low seven bits of the first `count` bytes write, the least significant
first. -/
def septetSum (bytes : List UInt8) (count : Nat) : Nat :=
  ∑ k ∈ Finset.range count, (bytes.getD k 0).toNat % 128 * 128 ^ k

theorem septetSum_cons (b : UInt8) (rest : List UInt8) (count : Nat) :
    septetSum (b :: rest) (count + 1) = b.toNat % 128 + 128 * septetSum rest count := by
  rw [septetSum, Finset.sum_range_succ', septetSum, Finset.mul_sum]
  simp only [List.getD_cons_succ, List.getD_cons_zero, pow_zero, mul_one]
  rw [add_comm]
  congr 1
  refine Finset.sum_congr rfl fun k _ => ?_
  ring

theorem septetSum_lt (bytes : List UInt8) (count : Nat) : septetSum bytes count < 128 ^ count := by
  induction count with
  | zero => simp [septetSum]
  | succ count ih =>
    have hdigit : (bytes.getD count 0).toNat % 128 ≤ 127 := by omega
    calc septetSum bytes (count + 1)
        = septetSum bytes count + (bytes.getD count 0).toNat % 128 * 128 ^ count :=
          Finset.sum_range_succ _ _
      _ < 128 ^ count + 127 * 128 ^ count :=
          Nat.add_lt_add_of_lt_of_le ih (Nat.mul_le_mul_right _ hdigit)
      _ = 128 ^ (count + 1) := by ring

/-! ## Reading -/

/-- The reader stops at the first byte with a clear top bit and returns the digits up to there. -/
theorem varintValue_eq (limit : Nat) (bytes : List UInt8) :
    varintValue limit bytes =
      ((bytes.take limit).findIdx? topBitClear).map fun i => (septetSum bytes (i + 1), i + 1) := by
  fun_induction varintValue limit bytes with
  | case1 => rfl
  | case2 => simp
  | case3 limit b rest hb =>
    have hsum : septetSum (b :: rest) 1 = b.toNat := by
      have hlt : b.toNat < 128 := UInt8.lt_iff_toNat_lt.1 hb
      rw [septetSum_cons, septetSum, Finset.sum_range_zero]
      omega
    rw [List.take_succ_cons, List.findIdx?_cons, topBitClear_eq, decide_eq_true hb, if_pos rfl,
      Option.map_some, hsum]
  | case4 limit b rest hb ih =>
    rw [List.take_succ_cons, List.findIdx?_cons, topBitClear_eq, decide_eq_false hb,
      if_neg Bool.false_ne_true, ih, Option.map_map, Option.map_map]
    congr 1
    funext i
    rw [Function.comp_apply, Function.comp_apply, septetSum_cons]

theorem decodeVarint_eq (bytes : List UInt8) :
    decodeVarint bytes = ((bytes.take 10).findIdx? topBitClear).map fun i =>
      (UInt64.ofNat (septetSum bytes (i + 1)), i + 1) := by
  rw [decodeVarint, varintLimit, varintValue_eq, Option.map_map]
  rfl

theorem isSome_decodeVarint_iff {bytes : List UInt8} :
    (decodeVarint bytes).isSome = true ↔ ∃ b ∈ bytes.take 10, topBitClear b = true := by
  rw [decodeVarint_eq, Option.isSome_map, List.findIdx?_isSome, List.any_eq_true]

theorem decodeVarint_append {bytes : List UInt8} {v : UInt64} {used : Nat}
    (h : decodeVarint bytes = some (v, used)) (more : List UInt8) :
    decodeVarint (bytes ++ more) = some (v, used) := by
  obtain ⟨⟨n, count⟩, hvalue, hr⟩ := Option.map_eq_some_iff.1 h
  rw [decodeVarint, varintValue_append hvalue more, Option.map_some, hr]

/-! ## Lengths -/

/-- As many bytes are written for a number as it has digits. -/
theorem length_varintBytes_le_iff (n k : Nat) :
    (varintBytes n).length ≤ k + 1 ↔ n < 128 ^ (k + 1) := by
  induction k generalizing n with
  | zero =>
    by_cases hn : n < 128
    · simp [varintBytes_of_lt hn, hn]
    · have hrest : varintBytes (n / 128) ≠ [] := by
        rw [varintBytes]
        split <;> simp
      rw [varintBytes_of_ge (Nat.le_of_not_lt hn), List.length_cons, pow_one]
      have := List.length_pos_iff.2 hrest
      omega
  | succ k ih =>
    by_cases hn : n < 128
    · have hpow : 128 ≤ 128 ^ (k + 1 + 1) := Nat.le_self_pow (Nat.succ_ne_zero _) 128
      rw [varintBytes_of_lt hn, List.length_singleton]
      exact ⟨fun _ => Nat.lt_of_lt_of_le hn hpow, fun _ => by omega⟩
    · rw [varintBytes_of_ge (Nat.le_of_not_lt hn), List.length_cons, Nat.add_le_add_iff_right, ih,
        pow_succ 128 (k + 1), Nat.div_lt_iff_lt_mul (by decide)]

theorem length_encodeVarint_le (v : UInt64) : (encodeVarint v).length ≤ 10 :=
  (length_varintBytes_le_iff v.toNat 9).2 (Nat.lt_trans v.toNat_lt (by decide))

/-- Bytes that are read as a number are no fewer than those that are written for it. -/
theorem length_encodeVarint_le_of_decodeVarint {bytes : List UInt8} {v : UInt64} {used : Nat}
    (h : decodeVarint bytes = some (v, used)) :
    (encodeVarint v).length ≤ used ∧ used ≤ bytes.length := by
  rw [decodeVarint_eq] at h
  obtain ⟨i, hi, hr⟩ := Option.map_eq_some_iff.1 h
  obtain ⟨rfl, rfl⟩ := Prod.mk.inj hr
  have hlast : i < bytes.length := by
    obtain ⟨hlt, -⟩ := List.findIdx?_eq_some_iff_getElem.1 hi
    rw [List.length_take] at hlt
    omega
  -- Dropping bits makes a number smaller.
  have hsmall : (UInt64.ofNat (septetSum bytes (i + 1))).toNat < 128 ^ (i + 1) := by
    rw [UInt64.toNat_ofNat']
    exact Nat.lt_of_le_of_lt (Nat.mod_le _ _) (septetSum_lt bytes (i + 1))
  exact ⟨(length_varintBytes_le_iff _ i).2 hsmall, hlast⟩

/-- Bytes are read as a number exactly if the top bit of one of the first ten is clear. If `i` is
the first of these, the number is that of the low seven bits of the bytes up to it, modulo 2^64, and
`i + 1` bytes are taken, whatever follows. What is written for a number is read back, whatever
follows; it has at most ten bytes, and no fewer bytes are read as the number. -/
theorem varint_laws (bytes more : List UInt8) (v : UInt64) :
    ((decodeVarint bytes).isSome = true ↔ ∃ b ∈ bytes.take 10, topBitClear b = true) ∧
    (∀ i, (bytes.take 10).findIdx? topBitClear = some i →
      ∃ w, decodeVarint (bytes ++ more) = some (w, i + 1) ∧
        w.toNat =
          (∑ k ∈ Finset.range (i + 1), (bytes.getD k 0).toNat % 128 * 128 ^ k) % 2 ^ 64) ∧
    decodeVarint (encodeVarint v ++ more) = some (v, (encodeVarint v).length) ∧
    (encodeVarint v).length ≤ 10 ∧
    (bytes.length < (encodeVarint v).length → ∀ used, decodeVarint bytes ≠ some (v, used)) := by
  refine ⟨isSome_decodeVarint_iff, fun i hi => ?_,
    decodeVarint_append (decodeVarint_encodeVarint v) more, length_encodeVarint_le v, ?_⟩
  · have hread : decodeVarint bytes = some (UInt64.ofNat (septetSum bytes (i + 1)), i + 1) := by
      rw [decodeVarint_eq, hi, Option.map_some]
    exact ⟨_, decodeVarint_append hread more, UInt64.toNat_ofNat'⟩
  · intro hlt used hread
    obtain ⟨hle, hused⟩ := length_encodeVarint_le_of_decodeVarint hread
    omega

/-- Ten bytes of which the last has bits that do not count, with another byte behind them, and two
bytes that are too few for a number of 21 bits. -/
theorem varint_laws_wide :
    (([255, 128, 128, 128, 128, 128, 128, 128, 128, 3] : List UInt8).take 10).findIdx? topBitClear =
        some 9 ∧
      (∃ w, decodeVarint ([255, 128, 128, 128, 128, 128, 128, 128, 128, 3] ++ [7]) = some (w, 10) ∧
        w.toNat = 2 ^ 63 + 127) ∧
      ∀ used, decodeVarint [255, 127] ≠ some (2097151, used) := by
  have hfirst : (([255, 128, 128, 128, 128, 128, 128, 128, 128, 3] : List UInt8).take 10).findIdx?
      topBitClear = some 9 := by
    decide
  obtain ⟨-, hread, -⟩ :=
    varint_laws [255, 128, 128, 128, 128, 128, 128, 128, 128, 3] [7] 2097151
  obtain ⟨-, -, -, -, hshort⟩ := varint_laws [255, 127] [] 2097151
  obtain ⟨w, hw, hsum⟩ := hread 9 hfirst
  exact ⟨hfirst, ⟨w, hw, hsum.trans (by decide)⟩, hshort (by decide +kernel)⟩

end ProtoStub.Wire
