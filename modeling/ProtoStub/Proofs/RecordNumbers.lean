import ProtoStub.Proofs.UnknownRecords

/-!
# The records that bytes are

Bytes that are read as a message are a sequence of records, and where one record ends and the
next begins does not depend on the schema: reading the record of a known field takes the same
bytes as passing over it (`nextRecord_of_readRecord`). So the field numbers of the records are a
property of the bytes (`recordNumbers`); for bytes of the grammar `Records` they are the numbers
that the grammar gives (`Records.recordNumbers_eq`). Readers accept a little more than the grammar
has, such as a closing marker without a group, which is a record by itself.
-/

namespace ProtoStub.Wire

/-! ## The records of bytes -/

/-- The field number of the record at a cursor, whatever it holds, and the cursor after it. -/
def nextRecord (c : Cursor) : Except Error (UInt32 × Cursor) :=
  match c.varint with
  | .error e => .error e
  | .ok (tag, _) =>
    match splitTag tag with
    | .error e => .error e
    | .ok (number, wireType) => (fun rest => (number, rest)) <$> skipUnknown number wireType c

theorem nextRecord_eq {c after rest : Cursor} {tag : UInt64} {number : UInt32}
    {wireType : WireType} (htag : c.varint = .ok (tag, after))
    (hsplit : splitTag tag = .ok (number, wireType))
    (hskip : skipUnknown number wireType c = .ok rest) : nextRecord c = .ok (number, rest) := by
  simp only [nextRecord, htag, hsplit, hskip]
  rfl

theorem nextRecord_moved {c rest : Cursor} {number : UInt32}
    (h : nextRecord c = .ok (number, rest)) : Cursor.Moved c rest := by
  unfold nextRecord at h
  split at h
  · cases h
  split at h
  · cases h
  obtain ⟨after, hskip, hr⟩ := exists_of_map_eq_ok h
  cases hr
  exact skipUnknown_advance hskip

/-- The field numbers of the records that the bytes are, in their order. Records inside a group or
a body are not among them. -/
def recordNumbers (c : Cursor) : Except Error (List UInt32) :=
  if c.bytes.isEmpty then .ok []
  else
    match h : nextRecord c with
    | .error e => .error e
    | .ok (number, rest) =>
      have : rest.size < c.size := (nextRecord_moved h).size_lt
      (number :: ·) <$> recordNumbers rest
termination_by c.size

theorem recordNumbers_nil {c : Cursor} (h : c.bytes = []) : recordNumbers c = .ok [] := by
  rw [recordNumbers, h]
  rfl

theorem recordNumbers_cons {c rest : Cursor} {number : UInt32} {numbers : List UInt32}
    (hne : c.bytes ≠ []) (hrecord : nextRecord c = .ok (number, rest))
    (hrest : recordNumbers rest = .ok numbers) : recordNumbers c = .ok (number :: numbers) := by
  have hne' : ¬ c.bytes.isEmpty = true := by rwa [List.isEmpty_iff]
  rw [recordNumbers, if_neg hne']
  split
  next e he =>
    rw [hrecord] at he
    cases he
  next he =>
    rw [hrecord] at he
    cases he
    rw [hrest]
    rfl

theorem exists_of_recordNumbers {c rest : Cursor} {number : UInt32} {numbers : List UInt32}
    (hne : c.bytes ≠ []) (hrecord : nextRecord c = .ok (number, rest))
    (h : recordNumbers c = .ok numbers) :
    ∃ more, recordNumbers rest = .ok more ∧ numbers = number :: more := by
  have hne' : ¬ c.bytes.isEmpty = true := by rwa [List.isEmpty_iff]
  rw [recordNumbers, if_neg hne'] at h
  split at h
  · cases h
  next he =>
    rw [hrecord] at he
    cases he
    obtain ⟨more, hmore, hcons⟩ := exists_of_map_eq_ok h
    exact ⟨more, hmore, hcons.symm⟩

/-- Bytes of the grammar of records have the numbers that the grammar gives them. -/
theorem Records.recordNumbers_eq {numbers : List UInt32} {bytes : List UInt8}
    (h : Records numbers bytes) (offset : Nat) : recordNumbers ⟨offset, bytes⟩ = .ok numbers := by
  have hstep {tag more : List UInt8} {number : UInt32} {wireType : WireType}
      {numbers : List UInt32} {offset : Nat} {rest : Cursor} (htag : IsTag tag number wireType)
      (hskip : skipUnknown number wireType ⟨offset, tag ++ more⟩ = .ok rest)
      (hrest : recordNumbers rest = .ok numbers) :
      recordNumbers ⟨offset, tag ++ more⟩ = .ok (number :: numbers) := by
    obtain ⟨v, hvarint, hsplit⟩ := htag.exists_tag
    have hread : (⟨offset, tag ++ more⟩ : Cursor).varint =
        .ok (v, ⟨offset + tag.length, more⟩) := by
      rw [Cursor.varint, hvarint.varint?_eq]
    exact recordNumbers_cons (by simp [hvarint.ne_nil]) (nextRecord_eq hread hsplit hskip) hrest
  induction h generalizing offset with
  | nil => exact recordNumbers_nil rfl
  | @value number wireType numbers tag payload rest htag hpayload _ ih =>
    have hskip := skipUnknown_payload htag hpayload offset rest
    rw [List.append_assoc] at hskip ⊢
    exact hstep htag hskip (ih _)
  | @group number inner numbers opening body closing rest hopening hbody hclosing _ _ ih =>
    have hskip := skipUnknown_group hopening hbody hclosing offset rest
    simp only [List.append_assoc] at hskip ⊢
    exact hstep hopening hskip (ih _)

/-! ## Reading takes the bytes that passing over takes -/

theorem varint?_of_varint {c rest : Cursor} {v : UInt64} (h : c.varint = .ok (v, rest)) :
    c.varint? = some (v, rest) := by
  rw [Cursor.varint] at h
  cases hv : c.varint? with
  | none =>
    rw [hv] at h
    cases h
  | some r =>
    rw [hv] at h
    rw [Except.ok.inj h]

theorem skipValue_of_varint {c rest : Cursor} {v : UInt64} (h : c.varint = .ok (v, rest))
    (position : Nat) : skipValue .varint position c = .ok rest := by
  rw [skipValue, varint?_of_varint h]

theorem size_of_word {c rest : Cursor} {count n : Nat} {what : String}
    (h : c.word count what = .ok (n, rest)) : ¬ c.size < count ∧ rest = c.advance count := by
  rw [Cursor.word] at h
  split at h
  · cases h
  next hsize =>
    cases h
    exact ⟨hsize, rfl⟩

theorem skipValue_of_word64 {c rest : Cursor} {v : UInt64} (h : c.word64 = .ok (v, rest))
    (position : Nat) : skipValue .i64 position c = .ok rest := by
  obtain ⟨r, hword, hr⟩ := exists_of_map_eq_ok h
  cases hr
  obtain ⟨hsize, hrest⟩ := size_of_word hword
  rw [skipValue, if_neg hsize, hrest]

theorem skipValue_of_word32 {c rest : Cursor} {v : UInt32} (h : c.word32 = .ok (v, rest))
    (position : Nat) : skipValue .i32 position c = .ok rest := by
  obtain ⟨r, hword, hr⟩ := exists_of_map_eq_ok h
  cases hr
  obtain ⟨hsize, hrest⟩ := size_of_word hword
  rw [skipValue, if_neg hsize, hrest]

theorem skipValue_of_body {c content rest : Cursor} (h : c.body = .ok (content, rest))
    (position : Nat) : skipValue .len position c = .ok rest := by
  rw [Cursor.body] at h
  cases hv : c.varint? with
  | none =>
    rw [hv] at h
    cases h
  | some r =>
    obtain ⟨length, after⟩ := r
    simp only [hv] at h
    by_cases hlength : length.toNat ≤ after.size
    · rw [if_pos hlength] at h
      cases h
      simp only [skipValue, hv]
      rw [if_neg (by omega)]
    · rw [if_neg hlength] at h
      cases h

theorem bytes_ne_nil_of_varint {c rest : Cursor} {v : UInt64} (h : c.varint = .ok (v, rest)) :
    c.bytes ≠ [] := by
  intro hnil
  have := (Cursor.moved_of_varint h).size_lt
  rw [Cursor.size, Cursor.size, hnil] at this
  exact absurd this (Nat.not_lt_zero _)

theorem skipUnknown_of_skipValue {c after rest : Cursor} {tag : UInt64} {number : UInt32}
    {wireType : WireType} (htag : c.varint = .ok (tag, after))
    (hsplit : splitTag tag = .ok (number, wireType))
    (hvalue : ∀ position, skipValue wireType position after = .ok rest)
    (hgroup : wireType ≠ .startGroup) : skipUnknown number wireType c = .ok rest := by
  have hne : ¬ c.bytes.isEmpty = true := by
    rw [List.isEmpty_iff]
    exact bytes_ne_nil_of_varint htag
  simp only [skipUnknown, skipRecord, if_neg hne, varint?_of_varint htag, hsplit, hvalue]

end ProtoStub.Wire

namespace ProtoStub

open Wire

namespace Codec

variable {codec : Codec}

theorem skipValue_of_readScalar {kind : FieldKind} {path : String} {c rest : Cursor} {v : Value}
    (h : codec.readScalar kind path c = .ok (v, rest)) :
    (∀ position, skipValue kind.wireType position c = .ok rest) ∧
      kind.wireType ≠ .startGroup := by
  unfold readScalar at h
  split at h
  case h_8 =>
    split at h
    · cases h
    next hv =>
      obtain ⟨e, -, he⟩ := exists_of_map_eq_ok h
      cases he
      exact ⟨skipValue_of_varint hv, by simp [FieldKind.wireType]⟩
  case h_15 =>
    split at h
    · cases h
    next hbody =>
      split at h
      · cases h
      · cases h
        exact ⟨skipValue_of_body hbody, by decide⟩
  case h_16 =>
    obtain ⟨r, hbody, hr⟩ := exists_of_map_eq_ok h
    cases hr
    exact ⟨skipValue_of_body hbody, by decide⟩
  case h_9 | h_10 | h_11 =>
    obtain ⟨r, hword, hr⟩ := exists_of_map_eq_ok h
    cases hr
    exact ⟨skipValue_of_word64 hword, by decide⟩
  case h_12 | h_13 | h_14 =>
    obtain ⟨r, hword, hr⟩ := exists_of_map_eq_ok h
    cases hr
    exact ⟨skipValue_of_word32 hword, by decide⟩
  case h_17 | h_18 => cases h
  all_goals
    obtain ⟨r, hv, hr⟩ := exists_of_map_eq_ok h
    cases hr
    exact ⟨skipValue_of_varint hv, by decide⟩

/-- The slot of a record of a known field. -/
def Occurrence.slot? : Occurrence → Option Slot
  | .unknown => none
  | .scalars slot _ _ => some slot
  | .body slot _ _ => some slot

theorem skipValue_of_readSlot {slot : Slot} {wireType : WireType} {c rest : Cursor}
    {occurrence : Occurrence} (h : codec.readSlot slot wireType c = .ok (occurrence, rest)) :
    (∀ position, skipValue wireType position c = .ok rest) ∧ wireType ≠ .startGroup ∧
      occurrence.slot? = some slot := by
  unfold readSlot at h
  split at h
  · split at h
    next hlen =>
      obtain ⟨r, hbody, hr⟩ := exists_of_map_eq_ok h
      cases hr
      subst hlen
      exact ⟨skipValue_of_body hbody, by decide, rfl⟩
    · cases h
  · split at h
    next hpacked =>
      split at h
      · cases h
      next hbody =>
        obtain ⟨values, -, hr⟩ := exists_of_map_eq_ok h
        cases hr
        obtain rfl : wireType = .len := by simpa using (Bool.and_eq_true_iff.1 hpacked).2
        exact ⟨skipValue_of_body hbody, by decide, rfl⟩
    · split at h
      next hwire =>
        obtain ⟨r, hread, hr⟩ := exists_of_map_eq_ok h
        cases hr
        subst hwire
        obtain ⟨hskip, hgroup⟩ := skipValue_of_readScalar hread
        exact ⟨hskip, hgroup, rfl⟩
      · cases h

/-- Where a record ends does not depend on the fields that are known. -/
theorem nextRecord_of_readRecord {slots : Slots} {c rest : Cursor} {occurrence : Occurrence}
    (h : codec.readRecord slots c = .ok (occurrence, rest)) :
    ∃ number, nextRecord c = .ok (number, rest) ∧ slots number = occurrence.slot? := by
  unfold readRecord at h
  split at h
  · cases h
  next tag after htag =>
    split at h
    · cases h
    next number wireType hsplit =>
      refine ⟨number, ?_⟩
      split at h
      next hslot =>
        obtain ⟨after', hskip, hr⟩ := exists_of_map_eq_ok h
        cases hr
        exact ⟨nextRecord_eq htag hsplit hskip, hslot⟩
      next slot hslot =>
        obtain ⟨hvalue, hgroup, hslot'⟩ := skipValue_of_readSlot h
        have hskip := skipUnknown_of_skipValue htag hsplit hvalue hgroup
        exact ⟨nextRecord_eq htag hsplit hskip, hslot.trans hslot'.symm⟩

end Codec
end ProtoStub
