import ProtoStub.Text.Utf8

/-!
# Texts read back from UTF-8

Decoding takes one character at a time. One lemma for each length of a character says what
decoding does with bytes of the right ranges (`utf8DecodeFrom_one` to `utf8DecodeFrom_four`);
the bytes that encoding writes are in these ranges, so they give the character back
(`utf8DecodeFrom_utf8EncodeChar`), and with it every text (`utf8Decode_utf8Encode`).
-/

namespace ProtoStub.Text

/-! ## One character -/

section Character

variable {a b c d : UInt8} {lead : Utf8Lead} (index : Nat) (more : List UInt8)

theorem utf8DecodeFrom_one (ha : a.toNat < 0x80) :
    utf8DecodeFrom index (a :: more) =
      (Char.ofNat a.toNat :: ·) <$> utf8DecodeFrom (index + 1) more := by
  have hlt : a < 0x80 := UInt8.lt_iff_toNat_lt.2 ha
  rw [utf8DecodeFrom.eq_def]
  simp only [if_pos hlt]

theorem utf8DecodeFrom_two (ha : 0x80 ≤ a.toNat) (hlead : utf8Lead? a = some lead)
    (hextra : lead.extra = 1) (hb : (b < lead.low || lead.high < b) = false) :
    utf8DecodeFrom index (a :: b :: more) =
      (Char.ofNat (a.toNat % 0x20 * 0x40 + continuationBits b) :: ·) <$>
        utf8DecodeFrom (index + 2) more := by
  have hge : ¬ a < 0x80 := fun h => absurd (UInt8.lt_iff_toNat_lt.1 h) (Nat.not_lt.2 ha)
  rw [utf8DecodeFrom.eq_def]
  simp only [if_neg hge, hlead, hb, hextra, Bool.false_eq_true, if_false, if_true]

theorem utf8DecodeFrom_three (ha : 0x80 ≤ a.toNat) (hlead : utf8Lead? a = some lead)
    (hextra : lead.extra = 2) (hb : (b < lead.low || lead.high < b) = false)
    (hc : isContinuation c = true) :
    utf8DecodeFrom index (a :: b :: c :: more) =
      (Char.ofNat ((a.toNat % 0x10 * 0x40 + continuationBits b) * 0x40 + continuationBits c) :: ·)
        <$> utf8DecodeFrom (index + 3) more := by
  have hge : ¬ a < 0x80 := fun h => absurd (UInt8.lt_iff_toNat_lt.1 h) (Nat.not_lt.2 ha)
  rw [utf8DecodeFrom.eq_def]
  simp only [if_neg hge, hlead, hb, hextra, hc, Bool.false_eq_true, Bool.not_true, if_false,
    if_true, Nat.reduceEqDiff]

theorem utf8DecodeFrom_four (ha : 0x80 ≤ a.toNat) (hlead : utf8Lead? a = some lead)
    (hextra : lead.extra = 3) (hb : (b < lead.low || lead.high < b) = false)
    (hc : isContinuation c = true) (hd : isContinuation d = true) :
    utf8DecodeFrom index (a :: b :: c :: d :: more) =
      (Char.ofNat
        (((a.toNat % 0x08 * 0x40 + continuationBits b) * 0x40 + continuationBits c) * 0x40 +
          continuationBits d) :: ·) <$> utf8DecodeFrom (index + 4) more := by
  have hge : ¬ a < 0x80 := fun h => absurd (UInt8.lt_iff_toNat_lt.1 h) (Nat.not_lt.2 ha)
  rw [utf8DecodeFrom.eq_def]
  simp only [if_neg hge, hlead, hb, hextra, hc, hd, Bool.false_eq_true, Bool.not_true, if_false,
    Nat.reduceEqDiff]

end Character

/-! ## Lead bytes -/

theorem outside_eq_false {b low high : UInt8} (hlow : low.toNat ≤ b.toNat)
    (hhigh : b.toNat ≤ high.toNat) : (b < low || high < b) = false := by
  simp only [Bool.or_eq_false_iff, decide_eq_false_iff_not, UInt8.lt_iff_toNat_lt]
  omega

theorem utf8Lead?_two {a b : UInt8} (hlow : 0xC2 ≤ a.toNat) (hhigh : a.toNat ≤ 0xDF)
    (hb : 0x80 ≤ b.toNat) (hb' : b.toNat ≤ 0xBF) :
    ∃ lead, utf8Lead? a = some lead ∧ lead.extra = 1 ∧
      (b < lead.low || lead.high < b) = false := by
  unfold utf8Lead?
  simp only [UInt8.lt_iff_toNat_lt, UInt8.le_iff_toNat_le, UInt8.reduceToNat]
  rw [if_neg (by omega), if_pos hhigh]
  exact ⟨_, rfl, rfl, outside_eq_false hb hb'⟩

/-- The lead byte of three bytes keeps its second byte out of overlong forms and surrogates. -/
theorem utf8Lead?_three {a b : UInt8} (hlow : 0xE0 ≤ a.toNat) (hhigh : a.toNat ≤ 0xEF)
    (hfirst : a.toNat = 0xE0 → 0xA0 ≤ b.toNat) (hsurrogate : a.toNat = 0xED → b.toNat ≤ 0x9F)
    (hb : 0x80 ≤ b.toNat) (hb' : b.toNat ≤ 0xBF) :
    ∃ lead, utf8Lead? a = some lead ∧ lead.extra = 2 ∧
      (b < lead.low || lead.high < b) = false := by
  unfold utf8Lead?
  simp only [UInt8.lt_iff_toNat_lt, UInt8.le_iff_toNat_le, ← UInt8.toNat_inj, UInt8.reduceToNat]
  rw [if_neg (by omega), if_neg (by omega)]
  split
  next h => exact ⟨_, rfl, rfl, outside_eq_false (hfirst h) hb'⟩
  split
  next h => exact ⟨_, rfl, rfl, outside_eq_false hb (hsurrogate h)⟩
  · exact ⟨_, rfl, rfl, outside_eq_false hb hb'⟩

/-- The lead byte of four bytes keeps its second byte out of overlong forms and code points
that are too large. -/
theorem utf8Lead?_four {a b : UInt8} (hlow : 0xF0 ≤ a.toNat) (hhigh : a.toNat ≤ 0xF4)
    (hfirst : a.toNat = 0xF0 → 0x90 ≤ b.toNat) (hlast : a.toNat = 0xF4 → b.toNat ≤ 0x8F)
    (hb : 0x80 ≤ b.toNat) (hb' : b.toNat ≤ 0xBF) :
    ∃ lead, utf8Lead? a = some lead ∧ lead.extra = 3 ∧
      (b < lead.low || lead.high < b) = false := by
  unfold utf8Lead?
  simp only [UInt8.lt_iff_toNat_lt, UInt8.le_iff_toNat_le, ← UInt8.toNat_inj, UInt8.reduceToNat]
  rw [if_neg (by omega), if_neg (by omega), if_neg (by omega), if_neg (by omega),
    if_neg (by omega)]
  split
  next h => exact ⟨_, rfl, rfl, outside_eq_false (hfirst h) hb'⟩
  split
  · exact ⟨_, rfl, rfl, outside_eq_false hb hb'⟩
  next h =>
    have hlast' : a.toNat = 0xF4 := by omega
    rw [if_pos hlast']
    exact ⟨_, rfl, rfl, outside_eq_false hb (hlast hlast')⟩

/-! ## Continuation bytes -/

theorem toNat_continuation (n : Nat) : (UInt8.ofNat (n % 0x40 + 0x80)).toNat = n % 0x40 + 0x80 :=
  UInt8.toNat_ofNat_of_lt' (show n % 0x40 + 0x80 < 256 by omega)

theorem isContinuation_continuation (n : Nat) :
    isContinuation (UInt8.ofNat (n % 0x40 + 0x80)) = true := by
  simp only [isContinuation, Bool.and_eq_true, decide_eq_true_eq, UInt8.le_iff_toNat_le,
    toNat_continuation, UInt8.reduceToNat]
  omega

theorem continuationBits_continuation (n : Nat) :
    continuationBits (UInt8.ofNat (n % 0x40 + 0x80)) = n % 0x40 := by
  rw [continuationBits, toNat_continuation]
  omega

/-! ## Reading back -/

/-- A character is read back from its bytes, whatever follows them. -/
theorem utf8DecodeFrom_utf8EncodeChar (c : Char) (index : Nat) (more : List UInt8) :
    utf8DecodeFrom index (String.utf8EncodeChar c ++ more) =
      (c :: ·) <$> utf8DecodeFrom (index + (String.utf8EncodeChar c).length) more := by
  have hvalid : c.toNat < 0xD800 ∨ 0xDFFF < c.toNat ∧ c.toNat < 0x110000 := c.valid
  have hback := Char.ofNat_toNat c
  have hval : c.val.toNat = c.toNat := rfl
  have hb := toNat_continuation c.toNat
  have hb6 := toNat_continuation (c.toNat / 64)
  have hb12 := toNat_continuation (c.toNat / 4096)
  unfold String.utf8EncodeChar
  simp only [hval]
  split
  next h1 =>
    have ha : (UInt8.ofNat c.toNat).toNat = c.toNat :=
      UInt8.toNat_ofNat_of_lt' (show c.toNat < 256 by omega)
    rw [List.singleton_append, utf8DecodeFrom_one index more (by omega), ha, hback]
    rfl
  split
  next h1 h2 =>
    have ha : (UInt8.ofNat (c.toNat / 64 % 0x20 + 0xc0)).toNat = c.toNat / 64 + 0xc0 := by
      rw [UInt8.toNat_ofNat_of_lt' (show c.toNat / 64 % 0x20 + 0xc0 < 256 by omega)]
      omega
    obtain ⟨lead, hlead, hextra, hin⟩ :=
      utf8Lead?_two (show 0xC2 ≤ (UInt8.ofNat (c.toNat / 64 % 0x20 + 0xc0)).toNat by omega)
        (by omega) (show 0x80 ≤ (UInt8.ofNat (c.toNat % 0x40 + 0x80)).toNat by omega) (by omega)
    have hchar : (c.toNat / 64 + 0xc0) % 0x20 * 0x40 + c.toNat % 0x40 = c.toNat := by omega
    rw [List.cons_append, List.singleton_append,
      utf8DecodeFrom_two index more (by omega) hlead hextra hin, ha,
      continuationBits_continuation, hchar, hback]
    rfl
  split
  next h2 h3 =>
    have ha : (UInt8.ofNat (c.toNat / 4096 % 0x10 + 0xe0)).toNat = c.toNat / 4096 + 0xe0 := by
      rw [UInt8.toNat_ofNat_of_lt' (show c.toNat / 4096 % 0x10 + 0xe0 < 256 by omega)]
      omega
    obtain ⟨lead, hlead, hextra, hin⟩ :=
      utf8Lead?_three (show 0xE0 ≤ (UInt8.ofNat (c.toNat / 4096 % 0x10 + 0xe0)).toNat by omega)
        (by omega) (b := UInt8.ofNat (c.toNat / 64 % 0x40 + 0x80)) (by omega) (by omega) (by omega)
        (by omega)
    have hchar : ((c.toNat / 4096 + 0xe0) % 0x10 * 0x40 + c.toNat / 64 % 0x40) * 0x40 +
        c.toNat % 0x40 = c.toNat := by omega
    rw [List.cons_append, List.cons_append, List.singleton_append,
      utf8DecodeFrom_three index more (by omega) hlead hextra hin
        (isContinuation_continuation c.toNat), ha, continuationBits_continuation,
      continuationBits_continuation, hchar, hback]
    rfl
  next h3 =>
    have ha : (UInt8.ofNat (c.toNat / 262144 % 0x08 + 0xf0)).toNat = c.toNat / 262144 + 0xf0 := by
      rw [UInt8.toNat_ofNat_of_lt' (show c.toNat / 262144 % 0x08 + 0xf0 < 256 by omega)]
      omega
    obtain ⟨lead, hlead, hextra, hin⟩ :=
      utf8Lead?_four (show 0xF0 ≤ (UInt8.ofNat (c.toNat / 262144 % 0x08 + 0xf0)).toNat by omega)
        (by omega) (b := UInt8.ofNat (c.toNat / 4096 % 0x40 + 0x80)) (by omega) (by omega)
        (by omega) (by omega)
    have hchar : (((c.toNat / 262144 + 0xf0) % 0x08 * 0x40 + c.toNat / 4096 % 0x40) * 0x40 +
        c.toNat / 64 % 0x40) * 0x40 + c.toNat % 0x40 = c.toNat := by omega
    rw [List.cons_append, List.cons_append, List.cons_append, List.singleton_append,
      utf8DecodeFrom_four index more (by omega) hlead hextra hin
        (isContinuation_continuation (c.toNat / 64)) (isContinuation_continuation c.toNat), ha,
      continuationBits_continuation, continuationBits_continuation,
      continuationBits_continuation, hchar, hback]
    rfl

theorem utf8DecodeFrom_flatMap (cs : List Char) (index : Nat) :
    utf8DecodeFrom index (cs.flatMap String.utf8EncodeChar) = .ok cs := by
  induction cs generalizing index with
  | nil => rw [List.flatMap_nil, utf8DecodeFrom]
  | cons c cs ih =>
    rw [List.flatMap_cons, utf8DecodeFrom_utf8EncodeChar, ih]
    rfl

/-- A text is read back from its bytes. -/
theorem utf8Decode_utf8Encode (s : String) : utf8Decode (utf8Encode s) = .ok s := by
  rw [utf8Decode, utf8Encode, utf8DecodeFrom_flatMap]
  exact congrArg Except.ok String.ofList_toList

end ProtoStub.Text
