import ProtoStub.Text.Base64

/-!
# Base64 texts read back

A base64 text is a number of whole groups of four symbols and a last group that may be padded.
The reader takes the two apart again, so the proof first lays out a text in that way
(`Layout`), following the writer from group to group, and then runs the reader over the layout.
-/

namespace ProtoStub.Text

/-! ## Symbols -/

/-- The byte of the symbol of a six-bit value. -/
def base64Byte (n : Nat) : UInt8 := UInt8.ofNat (base64Symbol n).toNat

theorem utf8EncodeChar_symbol : ∀ n < 64,
    String.utf8EncodeChar (base64Symbol n) = [base64Byte n] := by decide

theorem base64Value?_byte : ∀ n < 64, base64Value? (base64Byte n) = some n := by decide

theorem base64Byte_ne_pad : ∀ n < 64, base64Byte n ≠ base64Pad := by decide

theorem base64Values_cons {n : Nat} (h : n < 64) (offset : Nat) (rest : List UInt8) :
    base64Values offset (base64Byte n :: rest) =
      (n :: ·) <$> base64Values (offset + 1) rest := by
  rw [base64Values, base64Value?_byte n h]

theorem base64Tail_symbol {n : Nat} (h : n < 64) (offset index : Nat) (rest : List UInt8) :
    base64Tail offset index none (base64Byte n :: rest) =
      (fun r => ((base64Byte n, n) :: r.1, r.2)) <$>
        base64Tail offset (index + 1) none rest := by
  rw [base64Tail, if_neg (base64Byte_ne_pad n h)]
  simp only [base64Value?_byte n h]

/-! ## Layouts -/

/-- The bytes of a text: whole groups with their values, and a last group with its symbols, the
number of its padding bytes and what it stands for. -/
structure Base64Layout (text content : List UInt8) where
  whole : List UInt8
  values : List Nat
  last : List UInt8
  symbols : List (UInt8 × Nat)
  pads : Nat
  tail : List UInt8
  text_eq : text = whole ++ last
  whole_length : whole.length % 4 = 0
  last_length : last.length = 4
  values_eq : ∀ offset, base64Values offset whole = .ok values
  symbols_eq : ∀ offset, base64Tail offset 0 none last = .ok (symbols, pads)
  symbols_length : 2 ≤ symbols.length
  tail_eq : ∀ offset, base64Last offset symbols pads = .ok tail
  content_eq : content = base64Groups values ++ tail

/-- The reader gives what a layout stands for. -/
theorem Base64Layout.decode {text content : List UInt8} (h : Base64Layout text content) :
    base64DecodeBytes text = .ok content := by
  obtain ⟨whole, values, last, symbols, pads, tail, rfl, hwhole, hlast, hvalues, hsymbols, hlength,
    htail, rfl⟩ := h
  have hcount : (whole ++ last).length = whole.length + 4 := by
    rw [List.length_append, hlast]
  have hstart : whole.length + 4 - base64LastLength (whole.length + 4) = whole.length := by
    rw [base64LastLength, if_pos (by omega)]
    omega
  have hstray : ¬ (whole.length + 4) % 4 = 1 := by omega
  have hshort : ¬ (0 < whole.length + 4 ∧ symbols.length < 2) := by omega
  simp only [base64DecodeBytes, hcount, hstart, if_neg hstray, base64DecodeBytes.decodeGroups,
    List.take_left, List.drop_left, hvalues, hsymbols, htail, bind, Except.bind, if_neg hshort]
  rfl

/-! ## The layout of what is written -/

/-- The bytes of the base64 text of a byte sequence. -/
def base64Bytes (bytes : List UInt8) : List UInt8 :=
  (base64Chars bytes).flatMap String.utf8EncodeChar

section

variable (a b c : UInt8)

theorem firstSextet_lt : a.toNat / 4 < 64 := by
  have := a.toNat_lt
  omega

theorem secondSextet_lt : a.toNat % 4 * 16 + b.toNat / 16 < 64 := by
  have := b.toNat_lt
  omega

theorem thirdSextet_lt : b.toNat % 16 * 4 + c.toNat / 64 < 64 := by
  have := c.toNat_lt
  omega

theorem fourthSextet_lt : c.toNat % 64 < 64 := Nat.mod_lt _ (by decide)

/-- The three bytes of a whole group are put together again. -/
theorem base64Groups_cons (values : List Nat) :
    base64Groups (a.toNat / 4 :: (a.toNat % 4 * 16 + b.toNat / 16) ::
      (b.toNat % 16 * 4 + c.toNat / 64) :: c.toNat % 64 :: values) =
        a :: b :: c :: base64Groups values := by
  have ha := a.toNat_lt
  have hb := b.toNat_lt
  have hc := c.toNat_lt
  have h₁ : a.toNat / 4 * 4 + (a.toNat % 4 * 16 + b.toNat / 16) / 16 = a.toNat := by omega
  have h₂ : (a.toNat % 4 * 16 + b.toNat / 16) % 16 * 16 +
      (b.toNat % 16 * 4 + c.toNat / 64) / 4 = b.toNat := by omega
  have h₃ : (b.toNat % 16 * 4 + c.toNat / 64) % 4 * 64 + c.toNat % 64 = c.toNat := by omega
  rw [base64Groups, h₁, h₂, h₃, UInt8.ofNat_toNat, UInt8.ofNat_toNat, UInt8.ofNat_toNat]

theorem base64Bytes_cons (rest : List UInt8) :
    base64Bytes (a :: b :: c :: rest) =
      base64Byte (a.toNat / 4) :: base64Byte (a.toNat % 4 * 16 + b.toNat / 16) ::
        base64Byte (b.toNat % 16 * 4 + c.toNat / 64) :: base64Byte (c.toNat % 64) ::
          base64Bytes rest := by
  simp only [base64Bytes, base64Chars, List.flatMap_cons, utf8EncodeChar_symbol _ (firstSextet_lt a),
    utf8EncodeChar_symbol _ (secondSextet_lt a b), utf8EncodeChar_symbol _ (thirdSextet_lt b c),
    utf8EncodeChar_symbol _ (fourthSextet_lt c), List.singleton_append]

theorem layout_one : Nonempty (Base64Layout (base64Bytes [a]) [a]) := by
  have ha := a.toNat_lt
  have hlt : a.toNat % 4 * 16 < 64 := by omega
  have htext : base64Bytes [a] =
      [base64Byte (a.toNat / 4), base64Byte (a.toNat % 4 * 16), base64Pad, base64Pad] := by
    simp only [base64Bytes, base64Chars, List.flatMap_cons, utf8EncodeChar_symbol _ (firstSextet_lt a),
      utf8EncodeChar_symbol _ hlt]
    rfl
  have hbyte : a.toNat / 4 * 4 + a.toNat % 4 * 16 / 16 = a.toNat := by omega
  refine ⟨⟨[], [], _, [(base64Byte (a.toNat / 4), a.toNat / 4),
    (base64Byte (a.toNat % 4 * 16), a.toNat % 4 * 16)], 2, [a], htext, rfl, rfl, fun _ => rfl,
    fun offset => ?_, Nat.le_refl _, fun offset => ?_, rfl⟩⟩
  · rw [base64Tail_symbol (firstSextet_lt a), base64Tail_symbol hlt]
    rfl
  · simp only [base64Last, List.length_cons, List.length_nil, Nat.mul_mod_left, hbyte,
      UInt8.ofNat_toNat]
    rfl

theorem layout_two : Nonempty (Base64Layout (base64Bytes [a, b]) [a, b]) := by
  have ha := a.toNat_lt
  have hb := b.toNat_lt
  have hlt : b.toNat % 16 * 4 < 64 := by omega
  have htext : base64Bytes [a, b] = [base64Byte (a.toNat / 4),
      base64Byte (a.toNat % 4 * 16 + b.toNat / 16), base64Byte (b.toNat % 16 * 4), base64Pad] := by
    simp only [base64Bytes, base64Chars, List.flatMap_cons, utf8EncodeChar_symbol _ (firstSextet_lt a),
      utf8EncodeChar_symbol _ (secondSextet_lt a b), utf8EncodeChar_symbol _ hlt]
    rfl
  have h₁ : a.toNat / 4 * 4 + (a.toNat % 4 * 16 + b.toNat / 16) / 16 = a.toNat := by omega
  have h₂ : (a.toNat % 4 * 16 + b.toNat / 16) % 16 * 16 + b.toNat % 16 * 4 / 4 = b.toNat := by
    omega
  refine ⟨⟨[], [], _, [(base64Byte (a.toNat / 4), a.toNat / 4),
    (base64Byte (a.toNat % 4 * 16 + b.toNat / 16), a.toNat % 4 * 16 + b.toNat / 16),
    (base64Byte (b.toNat % 16 * 4), b.toNat % 16 * 4)], 1, [a, b], htext, rfl, rfl, fun _ => rfl,
    fun offset => ?_, by simp, fun offset => ?_, rfl⟩⟩
  · rw [base64Tail_symbol (firstSextet_lt a), base64Tail_symbol (secondSextet_lt a b),
      base64Tail_symbol hlt]
    rfl
  · simp only [base64Last, List.length_cons, List.length_nil, Nat.mul_mod_left, h₁, h₂,
      UInt8.ofNat_toNat]
    rfl

theorem layout_three : Nonempty (Base64Layout (base64Bytes [a, b, c]) [a, b, c]) := by
  refine ⟨⟨[], [], _, [(base64Byte (a.toNat / 4), a.toNat / 4),
    (base64Byte (a.toNat % 4 * 16 + b.toNat / 16), a.toNat % 4 * 16 + b.toNat / 16),
    (base64Byte (b.toNat % 16 * 4 + c.toNat / 64), b.toNat % 16 * 4 + c.toNat / 64),
    (base64Byte (c.toNat % 64), c.toNat % 64)], 0, [a, b, c], base64Bytes_cons a b c [], rfl, rfl,
    fun _ => rfl, fun offset => ?_, by simp, fun offset => ?_, rfl⟩⟩
  · rw [base64Tail_symbol (firstSextet_lt a), base64Tail_symbol (secondSextet_lt a b),
      base64Tail_symbol (thirdSextet_lt b c), base64Tail_symbol (fourthSextet_lt c)]
    rfl
  · simp only [base64Last, List.length_cons, List.length_nil, List.map_cons, List.map_nil,
      base64Groups_cons]
    rfl

/-- A whole group in front of a layout. -/
theorem Base64Layout.cons {rest : List UInt8} (h : Base64Layout (base64Bytes rest) rest) :
    Nonempty (Base64Layout (base64Bytes (a :: b :: c :: rest)) (a :: b :: c :: rest)) := by
  obtain ⟨whole, values, last, symbols, pads, tail, htext, hwhole, hlast, hvalues, hsymbols, hlength,
    htail, hcontent⟩ := h
  refine ⟨⟨base64Byte (a.toNat / 4) :: base64Byte (a.toNat % 4 * 16 + b.toNat / 16) ::
      base64Byte (b.toNat % 16 * 4 + c.toNat / 64) :: base64Byte (c.toNat % 64) :: whole,
    a.toNat / 4 :: (a.toNat % 4 * 16 + b.toNat / 16) ::
      (b.toNat % 16 * 4 + c.toNat / 64) :: c.toNat % 64 :: values,
    last, symbols, pads, tail, ?_, ?_, hlast, fun offset => ?_, hsymbols, hlength, htail, ?_⟩⟩
  · rw [base64Bytes_cons, htext]
    rfl
  · simp only [List.length_cons]
    omega
  · rw [base64Values_cons (firstSextet_lt a), base64Values_cons (secondSextet_lt a b),
      base64Values_cons (thirdSextet_lt b c), base64Values_cons (fourthSextet_lt c), hvalues]
    rfl
  · rw [base64Groups_cons, List.cons_append, List.cons_append, List.cons_append, ← hcontent]

end

theorem layout_bytes {bytes : List UInt8} (h : bytes ≠ []) :
    Nonempty (Base64Layout (base64Bytes bytes) bytes) := by
  fun_induction base64Chars bytes with
  | case1 => exact absurd rfl h
  | case2 a => exact layout_one a
  | case3 a b => exact layout_two a b
  | case4 a b c rest ih =>
    by_cases hrest : rest = []
    · rw [hrest]
      exact layout_three a b c
    · obtain ⟨layout⟩ := ih hrest
      exact layout.cons a b c

/-- Reading a base64 text gives the bytes that were written. -/
theorem base64Decode_base64Encode (bytes : List UInt8) :
    base64Decode (base64Encode bytes) = .ok bytes := by
  have hbytes : base64Decode (base64Encode bytes) = base64DecodeBytes (base64Bytes bytes) := by
    rw [base64Decode, base64Encode, String.toList_ofList, base64Bytes]
  rw [hbytes]
  by_cases h : bytes = []
  · rw [h]
    rfl
  · obtain ⟨layout⟩ := layout_bytes h
    exact layout.decode

end ProtoStub.Text
