import ProtoStub.Proofs.Concatenation
import ProtoStub.Wire.ZigZag

/-!
# Values on the wire read back

Every writer of the wire format has a reader that takes exactly the bytes that were written,
whatever follows them (`Takes`): variable-length integers, words of a fixed size, tags and
bodies with their length in front. Signed integers read back through their zigzag codes and
through two's complement.
-/

namespace ProtoStub.Wire

/-- The reader takes these bytes, at any offset and whatever follows them, for `a`. -/
def Takes {α : Type} (read : Cursor → Except Error (α × Cursor)) (bytes : List UInt8) (a : α) :
    Prop :=
  ∀ (offset : Nat) (more : List UInt8),
    read ⟨offset, bytes ++ more⟩ = .ok (a, ⟨offset + bytes.length, more⟩)

theorem Takes.map {α β : Type} {read : Cursor → Except Error (α × Cursor)} {bytes : List UInt8}
    {a : α} (h : Takes read bytes a) (f : α → β) :
    Takes (fun c => (fun r : α × Cursor => (f r.1, r.2)) <$> read c) bytes (f a) := by
  intro offset more
  simp only [h offset more]
  rfl

theorem Cursor.advance_append (offset : Nat) (bytes more : List UInt8) :
    (⟨offset, bytes ++ more⟩ : Cursor).advance bytes.length = ⟨offset + bytes.length, more⟩ := by
  simp only [Cursor.advance, List.drop_left]

/-! ## Variable-length integers -/

theorem varintBytes_of_lt {n : Nat} (h : n < 128) : varintBytes n = [UInt8.ofNat n] := by
  rw [varintBytes, if_pos h]

theorem varintBytes_of_ge {n : Nat} (h : 128 ≤ n) :
    varintBytes n = UInt8.ofNat (n % 128 + 128) :: varintBytes (n / 128) := by
  rw [varintBytes, if_neg (by omega)]

/-- A number that has at most `limit + 1` groups of seven bits is read back within as many
bytes. -/
theorem varintValue_varintBytes (limit n : Nat) (h : n < Nat.pow 128 (limit + 1)) :
    varintValue (limit + 1) (varintBytes n) = some (n, (varintBytes n).length) := by
  induction limit generalizing n with
  | zero =>
    have hn : n < 128 := h
    have hb : (UInt8.ofNat n).toNat = n := UInt8.toNat_ofNat_of_lt' (show n < 256 by omega)
    rw [varintBytes_of_lt hn, varintValue, if_pos (by rw [UInt8.lt_iff_toNat_lt, hb]; exact hn), hb]
    rfl
  | succ limit ih =>
    by_cases hn : n < 128
    · have hb : (UInt8.ofNat n).toNat = n := UInt8.toNat_ofNat_of_lt' (show n < 256 by omega)
      rw [varintBytes_of_lt hn, varintValue,
        if_pos (by rw [UInt8.lt_iff_toNat_lt, hb]; exact hn), hb]
      rfl
    · have hb : (UInt8.ofNat (n % 128 + 128)).toNat = n % 128 + 128 :=
        UInt8.toNat_ofNat_of_lt' (show n % 128 + 128 < 256 by omega)
      have hpow : Nat.pow 128 (limit + 1 + 1) = Nat.pow 128 (limit + 1) * 128 := rfl
      have hrest : n / 128 < Nat.pow 128 (limit + 1) := by
        rw [hpow] at h
        exact Nat.div_lt_of_lt_mul (by rwa [Nat.mul_comm])
      rw [varintBytes_of_ge (by omega), varintValue,
        if_neg (by rw [UInt8.lt_iff_toNat_lt, hb]; simp), ih _ hrest, hb]
      simp only [Option.map_some, List.length_cons, Option.some.injEq, Prod.mk.injEq, and_true]
      omega

theorem decodeVarint_encodeVarint (v : UInt64) :
    decodeVarint (encodeVarint v) = some (v, (encodeVarint v).length) := by
  have hlt : v.toNat < Nat.pow 128 (9 + 1) := Nat.lt_trans v.toNat_lt (by decide)
  simp only [decodeVarint, encodeVarint, varintLimit, varintValue_varintBytes 9 v.toNat hlt,
    Option.map_some, UInt64.ofNat_toNat]

theorem Cursor.varint?_encodeVarint (v : UInt64) (offset : Nat) (more : List UInt8) :
    (⟨offset, encodeVarint v ++ more⟩ : Cursor).varint? =
      some (v, ⟨offset + (encodeVarint v).length, more⟩) := by
  have h : (⟨offset, encodeVarint v⟩ : Cursor).varint? =
      some (v, (⟨offset, encodeVarint v⟩ : Cursor).advance (encodeVarint v).length) := by
    simp only [Cursor.varint?, decodeVarint_encodeVarint, Option.map_some]
  have hle : (encodeVarint v).length ≤ (⟨offset, encodeVarint v⟩ : Cursor).size := Nat.le_refl _
  have hext := Cursor.varint?_extend h more
  rw [← Cursor.advance_extend hle] at hext
  rw [← Cursor.advance_append]
  exact hext

theorem takes_varint (v : UInt64) : Takes Cursor.varint (encodeVarint v) v := by
  intro offset more
  simp only [Cursor.varint, Cursor.varint?_encodeVarint]

/-! ## Tags -/

theorem WireType.ofCode_code (wireType : WireType) :
    WireType.ofCode wireType.code = .ok wireType := by
  cases wireType <;> rfl

theorem WireType.ofCode_eq_ok_iff {code : Nat} {wireType : WireType} :
    WireType.ofCode code = .ok wireType ↔ code = wireType.code := by
  constructor
  · intro h
    unfold WireType.ofCode at h
    split at h <;> cases h <;> rfl
  · rintro rfl
    exact wireType.ofCode_code

theorem WireType.code_lt (wireType : WireType) : wireType.code < 8 := by
  cases wireType <;> decide

/-- Whether a number may be the number of a field. -/
def IsFieldNumber (number : UInt32) : Prop := 1 ≤ number.toNat ∧ number.toNat ≤ maxFieldNumber

instance (number : UInt32) : Decidable (IsFieldNumber number) :=
  inferInstanceAs (Decidable (_ ∧ _))

theorem tagValue_toNat (number : UInt32) (wireType : WireType) :
    (tagValue number wireType).toNat = number.toNat * 8 + wireType.code := by
  have hn := number.toNat_lt
  have hw := wireType.code_lt
  exact UInt64.toNat_ofNat_of_lt' (by simp only [UInt64.size]; omega)

/-- A tag is accepted for the low three bits as the code of a wire type and the 32 bits after them
as a field number. -/
theorem splitTag_eq_ok_iff {tag : UInt64} {number : UInt32} {wireType : WireType} :
    splitTag tag = .ok (number, wireType) ↔ IsFieldNumber number ∧
      tag.toNat % 8 = wireType.code ∧ UInt32.ofNat (tag.toNat / 8) = number := by
  have hzero : ∀ n : UInt32, n = 0 ↔ n.toNat < 1 := by
    intro n
    rw [← UInt32.toNat_inj, UInt32.toNat_zero]
    omega
  rw [splitTag]
  constructor
  · intro h
    cases hfound : WireType.ofCode (tag.toNat % 8) with
    | error e =>
      rw [hfound] at h
      cases h
    | ok found =>
      simp only [hfound, bind, Except.bind] at h
      split at h
      · cases h
      next hnumber =>
        cases h
        rw [hzero, not_or, Nat.not_lt, Nat.not_lt] at hnumber
        exact ⟨hnumber, WireType.ofCode_eq_ok_iff.1 hfound, rfl⟩
  · rintro ⟨hnumber, hcode, rfl⟩
    have hvalid : ¬ (UInt32.ofNat (tag.toNat / 8) = 0 ∨
        maxFieldNumber < (UInt32.ofNat (tag.toNat / 8)).toNat) := by
      rw [hzero, not_or, Nat.not_lt, Nat.not_lt]
      exact hnumber
    rw [WireType.ofCode_eq_ok_iff.2 hcode]
    simp only [bind, Except.bind, if_neg hvalid]
    rfl

theorem splitTag_tagValue {number : UInt32} (h : IsFieldNumber number) (wireType : WireType) :
    splitTag (tagValue number wireType) = .ok (number, wireType) := by
  have hw := wireType.code_lt
  have hnum : (number.toNat * 8 + wireType.code) / 8 = number.toNat := by omega
  rw [splitTag_eq_ok_iff, tagValue_toNat, hnum, UInt32.ofNat_toNat]
  exact ⟨h, by omega, rfl⟩

/-! ## Words -/

theorem length_littleEndian (count n : Nat) : (littleEndian count n).length = count := by
  induction count generalizing n with
  | zero => rfl
  | succ count ih => simp only [littleEndian, List.length_cons, ih]

theorem ofLittleEndian_littleEndian (count n : Nat) (h : n < Nat.pow 256 count) :
    ofLittleEndian (littleEndian count n) = n := by
  induction count generalizing n with
  | zero =>
    have hn : n < 1 := h
    simp only [littleEndian, ofLittleEndian]
    omega
  | succ count ih =>
    have hpow : Nat.pow 256 (count + 1) = Nat.pow 256 count * 256 := rfl
    have hrest : n / 256 < Nat.pow 256 count := by
      rw [hpow] at h
      exact Nat.div_lt_of_lt_mul (by rwa [Nat.mul_comm])
    have hb : (UInt8.ofNat (n % 256)).toNat = n % 256 :=
      UInt8.toNat_ofNat_of_lt' (show n % 256 < 256 by omega)
    simp only [littleEndian, ofLittleEndian, ih _ hrest, hb]
    omega

theorem takes_word (count n : Nat) (what : String) (h : n < Nat.pow 256 count) :
    Takes (fun c => c.word count what) (littleEndian count n) n := by
  intro offset more
  have hlen := length_littleEndian count n
  simp only [Cursor.word, Cursor.size, List.length_append, hlen]
  rw [if_neg (by omega)]
  have htake : (littleEndian count n ++ more).take count = littleEndian count n := by
    rw [List.take_append_of_le_length (by omega), List.take_of_length_le (by omega)]
  have hadv := Cursor.advance_append offset (littleEndian count n) more
  rw [hlen] at hadv
  rw [htake, ofLittleEndian_littleEndian count n h, hadv]

theorem takes_word64 (n : UInt64) : Takes Cursor.word64 (littleEndian 8 n.toNat) n := by
  have h := (takes_word 8 n.toNat "I64" n.toNat_lt).map UInt64.ofNat
  rwa [UInt64.ofNat_toNat] at h

theorem takes_word32 (n : UInt32) : Takes Cursor.word32 (littleEndian 4 n.toNat) n := by
  have h := (takes_word 4 n.toNat "I32" n.toNat_lt).map UInt32.ofNat
  rwa [UInt32.ofNat_toNat] at h

/-! ## Bodies -/

/-- The bytes of a body are found behind its length, and the rest behind the body. -/
theorem Cursor.body_lengthPrefixed {body : List UInt8} (h : body.length < UInt64.size)
    (offset : Nat) (more : List UInt8) :
    (⟨offset, lengthPrefixed body ++ more⟩ : Cursor).body =
      .ok (⟨offset + (encodeVarint (UInt64.ofNat body.length)).length, body⟩,
        ⟨offset + (lengthPrefixed body).length, more⟩) := by
  have hn : (UInt64.ofNat body.length).toNat = body.length := UInt64.toNat_ofNat_of_lt' h
  have happ : lengthPrefixed body ++ more =
      encodeVarint (UInt64.ofNat body.length) ++ (body ++ more) := List.append_assoc _ _ _
  simp only [Cursor.body, happ, Cursor.varint?_encodeVarint, hn, Cursor.size,
    List.length_append]
  rw [if_pos (by omega), Cursor.advance_append]
  simp only [Cursor.window, List.take_left, lengthPrefixed, List.length_append, Nat.add_assoc]

/-! ## Signed integers -/

theorem toNat_uint64_ofInt (x : Int) :
    ((UInt64.ofInt x).toNat : Int) = x % 18446744073709551616 := by
  have hlt : (x % 18446744073709551616).toNat < UInt64.size := by
    simp only [UInt64.size]
    omega
  have h : (UInt64.ofInt x).toNat = (x % 18446744073709551616).toNat :=
    UInt64.toNat_ofNat_of_lt' hlt
  rw [h]
  omega

theorem toNat_uint32_ofInt (x : Int) : ((UInt32.ofInt x).toNat : Int) = x % 4294967296 := by
  have hlt : (x % 4294967296).toNat < UInt32.size := by
    simp only [UInt32.size]
    omega
  have h : (UInt32.ofInt x).toNat = (x % 4294967296).toNat := UInt32.toNat_ofNat_of_lt' hlt
  rw [h]
  omega

/-- A sign-extended 32-bit integer is found in the low half of its 64 bits. -/
theorem int32_of_uint64_ofInt (n : Int32) :
    Int32.ofInt ((UInt64.ofInt n.toInt).toNat : Int) = n := by
  have hlow := n.le_toInt
  have hhigh := n.toInt_lt
  rw [toNat_uint64_ofInt, ← Int32.toInt_inj, Int32.toInt_ofInt]
  simp only [Int.bmod, Int32.size]
  omega

theorem int64_of_uint64_ofInt (n : Int64) :
    Int64.ofInt ((UInt64.ofInt n.toInt).toNat : Int) = n := by
  have hlow := n.le_toInt
  have hhigh := n.toInt_lt
  rw [toNat_uint64_ofInt, ← Int64.toInt_inj, Int64.toInt_ofInt]
  simp only [Int.bmod, Int64.size]
  omega

theorem int32_of_uint32_ofInt (n : Int32) :
    Int32.ofInt ((UInt32.ofInt n.toInt).toNat : Int) = n := by
  have hlow := n.le_toInt
  have hhigh := n.toInt_lt
  rw [toNat_uint32_ofInt, ← Int32.toInt_inj, Int32.toInt_ofInt]
  simp only [Int.bmod, Int32.size]
  omega

theorem zigzag_lt {n : Int} (bound : Nat) (hlow : -(bound : Int) ≤ n) (hhigh : n < bound) :
    zigzag n < 2 * bound := by
  unfold zigzag
  split <;> omega

theorem unzigzag32_zigzag32 (n : Int32) : unzigzag32 (zigzag32 n) = n := by
  have h : zigzag n.toInt < UInt32.size :=
    zigzag_lt 2147483648 n.le_toInt n.toInt_lt
  have h64 : (UInt64.ofNat (zigzag n.toInt)).toNat = zigzag n.toInt :=
    UInt64.toNat_ofNat_of_lt' (Nat.lt_trans h (by decide))
  rw [unzigzag32, zigzag32, h64, Nat.mod_eq_of_lt h, unzigzag_zigzag, Int32.ofInt_toInt]

theorem unzigzag64_zigzag64 (n : Int64) : unzigzag64 (zigzag64 n) = n := by
  have h : zigzag n.toInt < UInt64.size :=
    zigzag_lt 9223372036854775808 n.le_toInt n.toInt_lt
  rw [unzigzag64, zigzag64, UInt64.toNat_ofNat_of_lt' h, unzigzag_zigzag, Int64.ofInt_toInt]

end ProtoStub.Wire
