import Mathlib
import ProtoStub.Binary.Number

/-!
# Integers as doubles

An integer becomes the double that is nearest to it, and that double is an integer too: the nearest
multiple of the weight of its last bit (`toInt?_ofInt`). For integers of up to 53 bits this weight
is one and nothing is lost; from there on it doubles with every bit.

The bits of a magnitude are a significand and an exponent that counts how far the significand is
shifted. A significand that is rounded up to the next power of two carries into the exponent, which
comes to the same number.
-/

namespace ProtoStub.Binary

/-! ## Quotients -/

theorem roundQuotient_one (n : Nat) : roundQuotient n 1 = n := by
  simp [roundQuotient, Nat.mod_one]

theorem le_roundQuotient (num den : Nat) : num / den ≤ roundQuotient num den := by
  simp only [roundQuotient]
  split
  · exact Nat.le_refl _
  · split <;> omega

theorem roundQuotient_le (num den : Nat) : roundQuotient num den ≤ num / den + 1 := by
  simp only [roundQuotient]
  split
  · omega
  · split <;> omega

theorem scaleRatio_ofNat (num den k : Nat) : scaleRatio num den k = (num * 2 ^ k, den) := by
  simp [scaleRatio]

theorem scaleRatio_neg_ofNat (num den k : Nat) :
    scaleRatio num den (-(k : Int)) = (num, den * 2 ^ k) := by
  cases k with
  | zero => simp [scaleRatio]
  | succ k =>
    have hneg : ¬ (0 : Int) ≤ -((k + 1 : Nat) : Int) := by omega
    simp only [scaleRatio, if_neg hneg, Int.neg_neg, Int.toNat_natCast, Nat.pow_eq]

/-! ## Magnitudes of integers -/

theorem floorLog2_one {n : Nat} (h : n ≠ 0) : floorLog2 n 1 = n.log2 := by
  have hle : 1 * 2 ^ n.log2 ≤ n := by
    rw [Nat.one_mul]
    exact Nat.log2_self_le h
  have hlog : ((n.log2 : Int) - (Nat.log2 1 : Int)) = n.log2 := by
    rw [show Nat.log2 1 = 0 from by decide]
    omega
  simp only [floorLog2, hlog, scaleRatio_neg_ofNat, if_pos hle]

/-- The weight of the last bit of the double nearest to a number. -/
def lastPlace (n : Nat) : Nat := 2 ^ (n.log2 - 52)

/-- The significand of the double nearest to a number; two to the 53rd if it is rounded up to a
power of two. -/
def significand (n : Nat) : Nat := roundQuotient (n * 2 ^ (52 - n.log2)) (lastPlace n)

theorem lastPlace_pos (n : Nat) : 0 < lastPlace n := Nat.two_pow_pos _

theorem lastPlace_of_le {n : Nat} (h : n.log2 ≤ 52) : lastPlace n = 1 := by
  rw [lastPlace, Nat.sub_eq_zero_of_le h, Nat.pow_zero]

theorem scaleRatio_significand (n : Nat) :
    scaleRatio n 1 (-((n.log2 : Int) - 52)) = (n * 2 ^ (52 - n.log2), lastPlace n) := by
  rcases Nat.le_total n.log2 52 with hle | hle
  · have hexp : -((n.log2 : Int) - 52) = ((52 - n.log2 : Nat) : Int) := by omega
    rw [hexp, scaleRatio_ofNat, lastPlace_of_le hle]
  · have hexp : -((n.log2 : Int) - 52) = -((n.log2 - 52 : Nat) : Int) := by omega
    rw [hexp, scaleRatio_neg_ofNat, lastPlace, Nat.sub_eq_zero_of_le hle, Nat.pow_zero, Nat.one_mul,
      Nat.mul_one]

theorem significand_of_le {n : Nat} (h : n.log2 ≤ 52) : significand n = n * 2 ^ (52 - n.log2) := by
  rw [significand, lastPlace_of_le h, roundQuotient_one]

theorem significand_of_ge {n : Nat} (h : 52 ≤ n.log2) :
    significand n = roundQuotient n (lastPlace n) := by
  rw [significand, Nat.sub_eq_zero_of_le h, Nat.pow_zero, Nat.mul_one]

/-- The significand is rounded up to a power of two only where there are bits to round away. -/
theorem significand_bounds {n : Nat} (h : n ≠ 0) :
    2 ^ 52 ≤ significand n ∧ significand n ≤ 2 ^ 53 ∧ (n.log2 ≤ 52 → significand n < 2 ^ 53) := by
  have hlow := Nat.log2_self_le h
  have hhigh := @Nat.lt_log2_self n
  rcases Nat.le_total n.log2 52 with hle | hle
  · rw [significand_of_le hle]
    have hlow' : 2 ^ 52 ≤ n * 2 ^ (52 - n.log2) := by
      calc 2 ^ 52 = 2 ^ n.log2 * 2 ^ (52 - n.log2) := by rw [← Nat.pow_add]; congr 1; omega
        _ ≤ n * 2 ^ (52 - n.log2) := Nat.mul_le_mul_right _ hlow
    have hhigh' : n * 2 ^ (52 - n.log2) < 2 ^ 53 := by
      calc n * 2 ^ (52 - n.log2) < 2 ^ (n.log2 + 1) * 2 ^ (52 - n.log2) :=
            Nat.mul_lt_mul_of_pos_right hhigh (Nat.two_pow_pos _)
        _ = 2 ^ 53 := by rw [← Nat.pow_add]; congr 1; omega
    exact ⟨hlow', Nat.le_of_lt hhigh', fun _ => hhigh'⟩
  · have hlow' : 2 ^ 52 ≤ n / lastPlace n := by
      rw [Nat.le_div_iff_mul_le (lastPlace_pos n)]
      calc 2 ^ 52 * lastPlace n = 2 ^ n.log2 := by
            rw [lastPlace, ← Nat.pow_add]; congr 1; omega
        _ ≤ n := hlow
    have hhigh' : n / lastPlace n < 2 ^ 53 := by
      rw [Nat.div_lt_iff_lt_mul (lastPlace_pos n)]
      calc n < 2 ^ (n.log2 + 1) := hhigh
        _ = 2 ^ 53 * lastPlace n := by rw [lastPlace, ← Nat.pow_add]; congr 1; omega
    have hge := le_roundQuotient n (lastPlace n)
    have hle' := roundQuotient_le n (lastPlace n)
    refine ⟨?_, ?_, fun hsmall => ?_⟩
    · rw [significand_of_ge hle]
      omega
    · rw [significand_of_ge hle]
      omega
    · -- both bounds on the length leave 53 bits, of which none is rounded away
      rw [significand_of_ge hle, lastPlace_of_le hsmall, roundQuotient_one]
      rwa [lastPlace_of_le hsmall, Nat.div_one] at hhigh'

/-! ## The format of doubles -/

theorem double_unit : Nat.pow 2 (Format.double.precision - 1) = 2 ^ 52 := by decide +kernel

theorem double_minExponent : Format.double.minExponent = -1074 := by decide +kernel

theorem double_infinity : Format.double.infinity = 2047 * 2 ^ 52 := by decide +kernel

theorem double_signBit : Format.double.signBit = 2 ^ 63 := by decide +kernel

/-- The bits of the magnitude nearest to a number of at most 64 bits. -/
theorem ofRatio_one {n : Nat} (h : n ≠ 0) (hlt : n < UInt64.size) :
    Format.double.ofRatio n 1 = (n.log2 + 1022) * 2 ^ 52 + significand n := by
  have hlog : n.log2 < 64 := (Nat.log2_lt h).2 hlt
  have hbounds := significand_bounds h
  have hexp : max (-1074 : Int) ((n.log2 : Int) - (Format.double.precision - 1 : Nat)) =
      (n.log2 : Int) - 52 := by
    rw [show Format.double.precision - 1 = 52 from rfl]
    omega
  have hshift : ((n.log2 : Int) - 52 - -1074).toNat = n.log2 + 1022 := by omega
  simp only [Format.ofRatio, if_neg h, double_minExponent, floorLog2_one h, hexp,
    scaleRatio_significand, hshift, double_unit, double_infinity]
  rw [← significand, Nat.min_eq_right]
  omega

/-- The number that a significand at a place of the exponent stands for. -/
theorem split_significand {k q : Nat} (hk : k ≤ 2044) (hlow : 2 ^ 52 ≤ q) (hhigh : q ≤ 2 ^ 53) :
    Format.double.split (k * 2 ^ 52 + q) =
      if q < 2 ^ 53 then (q, (k : Int) - 1074) else (2 ^ 52, (k : Int) - 1073) := by
  have hmagnitude : Format.double.magnitude (k * 2 ^ 52 + q) = k * 2 ^ 52 + q := by
    rw [Format.magnitude, double_signBit]
    omega
  have hunit : ¬ k * 2 ^ 52 + q < 2 ^ 52 := by omega
  simp only [Format.split, hmagnitude, double_unit, double_minExponent, if_neg hunit]
  split
  · refine Prod.ext ?_ ?_ <;> simp only <;> omega
  · refine Prod.ext ?_ ?_ <;> simp only <;> omega

end ProtoStub.Binary

namespace ProtoStub.Binary64

open Binary

/-! ## Integers as doubles and back -/

/-- The integer that the double nearest to a number is. -/
def nearest (n : Nat) : Nat := roundQuotient n (lastPlace n) * lastPlace n

theorem nearest_of_le {n : Nat} (h : n.log2 ≤ 52) : nearest n = n := by
  rw [nearest, lastPlace_of_le h, roundQuotient_one, Nat.mul_one]

theorem nearest_of_ge {n : Nat} (h : 52 ≤ n.log2) : nearest n = significand n * lastPlace n := by
  rw [nearest, significand_of_ge h]

theorem nearest_pos {n : Nat} (h : n ≠ 0) : 0 < nearest n := by
  rcases Nat.le_total n.log2 52 with hle | hle
  · rw [nearest_of_le hle]
    exact Nat.pos_of_ne_zero h
  · rw [nearest_of_ge hle]
    exact Nat.mul_pos (Nat.lt_of_lt_of_le (by decide) (significand_bounds h).1) (lastPlace_pos n)

/-- The double nearest to a number has the value `nearest n`, as a quotient. -/
theorem exists_scaleRatio_nearest {n : Nat} (h : n ≠ 0) (hlt : n < UInt64.size) :
    ∃ m e d, Format.double.split (Format.double.ofRatio n 1) = (m, e) ∧ 0 < d ∧
      scaleRatio m 1 e = (nearest n * d, d) := by
  have hlog : n.log2 < 64 := (Nat.log2_lt h).2 hlt
  obtain ⟨hlow, hhigh, hcarry⟩ := significand_bounds h
  rw [ofRatio_one h hlt, split_significand (by omega) hlow hhigh]
  by_cases hsmall : n.log2 ≤ 52
  · have hexp : ((n.log2 + 1022 : Nat) : Int) - 1074 = -((52 - n.log2 : Nat) : Int) := by omega
    refine ⟨_, _, 2 ^ (52 - n.log2), if_pos (hcarry hsmall), Nat.two_pow_pos _, ?_⟩
    rw [hexp, scaleRatio_neg_ofNat, significand_of_le hsmall, nearest_of_le hsmall, Nat.one_mul]
  · rw [nearest_of_ge (by omega)]
    by_cases hq : significand n < 2 ^ 53
    · have hexp : ((n.log2 + 1022 : Nat) : Int) - 1074 = ((n.log2 - 52 : Nat) : Int) := by omega
      refine ⟨_, _, 1, if_pos hq, Nat.one_pos, ?_⟩
      rw [hexp, scaleRatio_ofNat, lastPlace, Nat.mul_one]
    · -- the significand was rounded up to a power of two, which the exponent carries
      have hexp : ((n.log2 + 1022 : Nat) : Int) - 1073 = ((n.log2 - 52 + 1 : Nat) : Int) := by omega
      have htop : significand n = 2 ^ 52 * 2 := by omega
      have hdouble : 2 ^ (n.log2 - 52 + 1) = 2 * 2 ^ (n.log2 - 52) := Nat.pow_succ'
      refine ⟨_, _, 1, if_neg hq, Nat.one_pos, ?_⟩
      rw [hexp, scaleRatio_ofNat, hdouble, htop, lastPlace, Nat.mul_one, Nat.mul_assoc]

theorem toNat_bits_ofMagnitude {magnitude : Nat} (h : magnitude < Format.double.infinity)
    (negative : Bool) :
    (ofMagnitude negative magnitude).bits.toNat = Format.double.withSign negative magnitude := by
  rw [double_infinity] at h
  refine UInt64.toNat_ofNat_of_lt' ?_
  simp only [Format.withSign, double_signBit, UInt64.size]
  split <;> omega

theorem magnitude_withSign {magnitude : Nat} (h : magnitude < Format.double.infinity)
    (negative : Bool) :
    Format.double.magnitude (Format.double.withSign negative magnitude) = magnitude := by
  rw [double_infinity] at h
  simp only [Format.magnitude, Format.withSign, double_signBit]
  split <;> omega

theorem isNegative_withSign {magnitude : Nat} (h : magnitude < Format.double.infinity)
    (negative : Bool) :
    Format.double.isNegative (Format.double.withSign negative magnitude) = negative := by
  rw [double_infinity] at h
  simp only [Format.isNegative, Format.withSign, double_signBit]
  cases negative with
  | false => simp only [Bool.false_eq_true, if_false, decide_eq_false_iff_not]; omega
  | true => simp only [if_true, decide_eq_true_eq]; omega

/-- A finite magnitude of an integral value is read as the integer, with its sign. -/
theorem toInt?_ofMagnitude {magnitude m n d : Nat} {e : Int}
    (hfinite : magnitude < Format.double.infinity)
    (hsplit : Format.double.split magnitude = (m, e)) (hd : 0 < d)
    (hscale : scaleRatio m 1 e = (n * d, d)) (negative : Bool) :
    (ofMagnitude negative magnitude).toInt? = some (if negative then -(n : Int) else n) := by
  have hmagnitude := magnitude_withSign hfinite negative
  have hplain : Format.double.magnitude magnitude = magnitude := magnitude_withSign hfinite false
  have hsplit' : Format.double.split (Format.double.withSign negative magnitude) = (m, e) := by
    rw [← hsplit, Format.split, Format.split, hmagnitude, hplain]
  have hfinite' : (ofMagnitude negative magnitude).isFinite = true := by
    rw [isFinite, toNat_bits_ofMagnitude hfinite, Format.isFinite, hmagnitude]
    exact decide_eq_true hfinite
  have hsign : (ofMagnitude negative magnitude).isNegative = negative := by
    rw [isNegative, toNat_bits_ofMagnitude hfinite, isNegative_withSign hfinite]
  simp only [toInt?, hfinite', if_true, toNat_bits_ofMagnitude hfinite, hsplit', hscale,
    Nat.mul_mod_left, Nat.mul_div_cancel n hd, hsign]

/-- An integer of at most 64 bits comes back from a double as the nearest integer of 53 leading
bits. -/
theorem toInt?_ofInt {n : Int} (h : n.natAbs < UInt64.size) :
    (ofInt n).toInt? = some (n.sign * nearest n.natAbs) := by
  by_cases hn : n = 0
  · subst hn
    decide +kernel
  · have habs : n.natAbs ≠ 0 := Int.natAbs_ne_zero.2 hn
    obtain ⟨m, e, d, hsplit, hd, hscale⟩ := exists_scaleRatio_nearest habs h
    have hfinite : Format.double.ofRatio n.natAbs 1 < Format.double.infinity := by
      have hlog : n.natAbs.log2 < 64 := (Nat.log2_lt habs).2 h
      have hbounds := significand_bounds habs
      rw [ofRatio_one habs h, double_infinity]
      omega
    rw [ofInt, toInt?_ofMagnitude hfinite hsplit hd hscale]
    rcases Int.lt_or_gt_of_ne hn with hneg | hpos
    · rw [decide_eq_true hneg, if_pos rfl, Int.sign_eq_neg_one_of_neg hneg, Int.neg_one_mul]
    · rw [decide_eq_false (by omega), if_neg Bool.false_ne_true, Int.sign_eq_one_of_pos hpos,
        Int.one_mul]

end ProtoStub.Binary64
