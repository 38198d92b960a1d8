import ProtoStub.Wire.Tag

/-
  The layouts below a record: little-endian words of a fixed size, and bodies with a
  length in front.
-/

namespace ProtoStub.Wire

/-- The `count` low bytes of a number, the least significant first. -/
def littleEndian : (count n : Nat) → List UInt8
  | 0, _ => []
  | count + 1, n => UInt8.ofNat (n % 256) :: littleEndian count (n / 256)

/-- The number that bytes write, the least significant first. -/
def ofLittleEndian : List UInt8 → Nat
  | [] => 0
  | b :: rest => b.toNat + 256 * ofLittleEndian rest

/-- A body with its length in front. -/
def lengthPrefixed (body : List UInt8) : List UInt8 :=
  encodeVarint (UInt64.ofNat body.length) ++ body

/-- A record that holds a body. -/
def bodyRecord (number : UInt32) (body : List UInt8) : List UInt8 :=
  encodeTag number .len ++ lengthPrefixed body

/-- A mapped result succeeds only where the result does. -/
theorem exists_of_map_eq_ok {ε α β : Type} {f : α → β} {r : Except ε α} {b : β}
    (h : f <$> r = .ok b) : ∃ a, r = .ok a ∧ f a = b := by
  cases r with
  | error e => simp [Functor.map, Except.map] at h
  | ok a => exact ⟨a, rfl, Except.ok.inj h⟩

namespace Cursor

/-- Reads a variable-length integer. -/
def varint (c : Cursor) : Except Error (UInt64 × Cursor) :=
  match c.varint? with
  | none => .error (.varint c.offset)
  | some r => .ok r

/-- Reads a word of `count` bytes, of which diagnostics say what `what` says. -/
def word (c : Cursor) (count : Nat) (what : String) : Except Error (Nat × Cursor) :=
  if c.size < count then .error (.wireFormat c.offset ("not enough bytes for " ++ what))
  else .ok (ofLittleEndian (c.bytes.take count), c.advance count)

/-- Reads eight bytes. -/
def word64 (c : Cursor) : Except Error (UInt64 × Cursor) :=
  (fun r => (UInt64.ofNat r.1, r.2)) <$> c.word 8 "I64"

/-- Reads four bytes. -/
def word32 (c : Cursor) : Except Error (UInt32 × Cursor) :=
  (fun r => (UInt32.ofNat r.1, r.2)) <$> c.word 4 "I32"

/-- Reads a length and gives a cursor over as many bytes and one after them. -/
def body (c : Cursor) : Except Error (Cursor × Cursor) :=
  match c.varint? with
  | none => .error (.varint c.offset)
  | some (length, rest) =>
    if length.toNat ≤ rest.size then
      .ok (rest.window length.toNat, rest.advance length.toNat)
    else
      .error (.wireFormat c.offset
        ("length " ++ toString length.toNat ++ " exceeds the " ++ toString rest.size ++
          " remaining bytes"))

/-- A reading that moved from `c` to `rest` consumed at least one byte, and none that were
not there. -/
def Moved (c rest : Cursor) : Prop :=
  ∃ used, 1 ≤ used ∧ used ≤ c.size ∧ rest = c.advance used

theorem Moved.size_lt {c rest : Cursor} (h : Moved c rest) : rest.size < c.size := by
  obtain ⟨used, hpos, hle, rfl⟩ := h
  rw [size_advance]
  omega

theorem Moved.trans {a b c : Cursor} (h : Moved a b) (h' : Moved b c) : Moved a c := by
  obtain ⟨m, hm, hma, rfl⟩ := h
  obtain ⟨n, hn, hnb, rfl⟩ := h'
  rw [size_advance] at hnb
  exact ⟨m + n, by omega, by omega, by rw [advance_advance]⟩

theorem moved_of_varint? {c rest : Cursor} {v : UInt64} (h : c.varint? = some (v, rest)) :
    Moved c rest :=
  varint?_advance h

theorem moved_of_varint {c rest : Cursor} {v : UInt64} (h : c.varint = .ok (v, rest)) :
    Moved c rest := by
  unfold varint at h
  split at h
  · simp at h
  next r hr =>
    rw [Except.ok.inj h] at hr
    exact moved_of_varint? hr

theorem moved_of_word {c rest : Cursor} {count n : Nat} {what : String} (hc : 0 < count)
    (h : c.word count what = .ok (n, rest)) : Moved c rest := by
  unfold word at h
  split at h
  · simp at h
  next hs =>
    simp only [Except.ok.injEq, Prod.mk.injEq] at h
    exact ⟨count, hc, by omega, h.2.symm⟩

theorem moved_of_word64 {c rest : Cursor} {n : UInt64} (h : c.word64 = .ok (n, rest)) :
    Moved c rest := by
  obtain ⟨r, hw, hr⟩ := exists_of_map_eq_ok h
  rw [← (Prod.mk.inj hr).2]
  exact moved_of_word (by decide) hw

theorem moved_of_word32 {c rest : Cursor} {n : UInt32} (h : c.word32 = .ok (n, rest)) :
    Moved c rest := by
  obtain ⟨r, hw, hr⟩ := exists_of_map_eq_ok h
  rw [← (Prod.mk.inj hr).2]
  exact moved_of_word (by decide) hw

/-- After a body the cursor has moved, and the body is shorter than what was to be read. -/
theorem moved_of_body {c inner rest : Cursor} (h : c.body = .ok (inner, rest)) :
    Moved c rest ∧ inner.size < c.size := by
  unfold body at h
  split at h
  · simp at h
  next length after hv =>
    obtain ⟨used, hpos, hle, rfl⟩ := varint?_advance hv
    split at h
    next hl =>
      simp only [Except.ok.injEq, Prod.mk.injEq] at h
      rw [size_advance] at hl
      constructor
      · exact ⟨used + length.toNat, by omega, by omega, by rw [← h.2, advance_advance]⟩
      · rw [← h.1, size_window, size_advance]
        omega
    · simp at h

end Cursor
end ProtoStub.Wire
