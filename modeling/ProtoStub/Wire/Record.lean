import ProtoStub.Wire.Tag

/-
  Records that nobody asked for. A record is a tag and the value its wire type lays
  out; a record with an unknown field number is passed over. A group is the records
  from an opening marker to the closing marker of the same depth.
-/

namespace ProtoStub.Wire

/-- The cursor after the value of a record whose tag ended at `c`. Faults are reported at
`position`. -/
def skipValue (wireType : WireType) (position : Nat) (c : Cursor) : Except Error Cursor :=
  match wireType with
  | .varint =>
    match c.varint? with
    | none => .error (.wireFormat position "failed to decode varint value")
    | some (_, rest) => .ok rest
  | .i64 =>
    if c.size < 8 then .error (.wireFormat position "not enough bytes for I64")
    else .ok (c.advance 8)
  | .len =>
    match c.varint? with
    | none => .error (.wireFormat position "failed to decode length prefix")
    | some (length, rest) =>
      if rest.size < length.toNat then
        .error (.wireFormat position
          ("not enough bytes for LEN field (need " ++ toString length.toNat ++ ", have " ++
            toString rest.size ++ ")"))
      else .ok (rest.advance length.toNat)
  | .startGroup | .endGroup => .ok c
  | .i32 =>
    if c.size < 4 then .error (.wireFormat position "not enough bytes for I32")
    else .ok (c.advance 4)

/-- The field number of the record at `c` and the cursor after it. Offsets of faults count
from the start of the record, on top of `origin`. A group marker is a record by itself. -/
def skipRecord (origin : Nat) (c : Cursor) : Except Error (UInt32 × Cursor) :=
  if c.bytes.isEmpty then .error (.wireFormat origin "empty data")
  else
    match c.varint? with
    | none => .error (.wireFormat origin "failed to decode field tag")
    | some (tag, rest) =>
      match splitTag tag with
      | .error e => .error e
      | .ok (number, wireType) =>
        match skipValue wireType (origin + (rest.offset - c.offset)) rest with
        | .error e => .error e
        | .ok after => .ok (number, after)

/-- Passing over a value moves the cursor by a number of bytes that are there. -/
theorem skipValue_advance {wireType : WireType} {position : Nat} {c after : Cursor}
    (h : skipValue wireType position c = .ok after) :
    ∃ used, used ≤ c.size ∧ after = c.advance used := by
  unfold skipValue at h
  split at h
  · split at h
    · simp at h
    next hv =>
      obtain ⟨used, _, hle, rfl⟩ := Cursor.varint?_advance hv
      exact ⟨used, hle, (Except.ok.inj h).symm⟩
  · split at h
    · simp at h
    · exact ⟨8, by omega, (Except.ok.inj h).symm⟩
  · split at h
    · simp at h
    next length rest hv =>
      obtain ⟨used, _, hle, rfl⟩ := Cursor.varint?_advance hv
      split at h
      · simp at h
      next hs =>
        refine ⟨used + length.toNat, ?_, ?_⟩
        · rw [Cursor.size_advance] at hs
          omega
        · rw [← Except.ok.inj h, Cursor.advance_advance]
  · exact ⟨0, by omega, by simp [← Except.ok.inj h]⟩
  · exact ⟨0, by omega, by simp [← Except.ok.inj h]⟩
  · split at h
    · simp at h
    · exact ⟨4, by omega, (Except.ok.inj h).symm⟩

/-- Passing over a record moves the cursor by at least one byte. -/
theorem skipRecord_advance {origin : Nat} {c after : Cursor} {number : UInt32}
    (h : skipRecord origin c = .ok (number, after)) :
    ∃ used, 1 ≤ used ∧ used ≤ c.size ∧ after = c.advance used := by
  unfold skipRecord at h
  split at h
  · simp at h
  split at h
  · simp at h
  next tag rest hv =>
    obtain ⟨used, hpos, hle, rfl⟩ := Cursor.varint?_advance hv
    split at h
    · simp at h
    split at h
    · simp at h
    next hs =>
      obtain ⟨more, hmore, rfl⟩ := skipValue_advance hs
      simp only [Except.ok.injEq, Prod.mk.injEq] at h
      rw [Cursor.size_advance] at hmore
      exact ⟨used + more, by omega, by omega, by rw [← h.2, Cursor.advance_advance]⟩

/-- The cursor after the closing marker that ends `depth` open groups. Markers are counted
and their numbers are not compared; `number` is the field number of the outermost group. -/
def skipGroups (origin : Nat) (number : UInt32) (depth : Nat) (c : Cursor) :
    Except Error Cursor :=
  match depth with
  | 0 => .ok c
  | depth + 1 =>
    if c.bytes.isEmpty then
      .error (.wireFormat c.offset ("unterminated group " ++ toString number.toNat))
    else
      match c.varint? with
      | none => .error (.varint c.offset)
      | some (tag, _) =>
        match splitTag tag with
        | .error e => .error e
        | .ok (_, wireType) =>
          match h : skipRecord origin c with
          | .error e => .error e
          | .ok (_, rest) =>
            have : rest.size < c.size := by
              obtain ⟨used, hpos, hle, rfl⟩ := skipRecord_advance h
              rw [Cursor.size_advance]
              omega
            skipGroups origin number
              (match wireType with
                | .startGroup => depth + 2
                | .endGroup => depth
                | _ => depth + 1)
              rest
termination_by c.size

/-- The cursor after the record at `c`, whose tag has already been looked at. An opening
marker takes everything up to its closing marker along. -/
def skipUnknown (number : UInt32) (wireType : WireType) (c : Cursor) : Except Error Cursor :=
  match skipRecord c.offset c with
  | .error e => .error e
  | .ok (_, rest) =>
    match wireType with
    | .startGroup => skipGroups c.offset number 1 rest
    | _ => .ok rest

/-- Closing groups only moves the cursor forward. -/
theorem skipGroups_advance {origin : Nat} {number : UInt32} {depth : Nat} {c after : Cursor}
    (h : skipGroups origin number depth c = .ok after) :
    ∃ used, used ≤ c.size ∧ after = c.advance used := by
  fun_induction skipGroups origin number depth c with
  | case1 c => exact ⟨0, by omega, by simp [← Except.ok.inj h]⟩
  | case2 => simp at h
  | case3 => simp at h
  | case4 => simp at h
  | case5 => simp at h
  | case6 =>
    rename_i rest hr _ ih
    obtain ⟨more, hmore, hafter⟩ := ih h
    obtain ⟨used, _, hle, rfl⟩ := skipRecord_advance hr
    rw [Cursor.size_advance] at hmore
    exact ⟨used + more, by omega, by rw [hafter, Cursor.advance_advance]⟩

/-- Passing over an unknown field moves the cursor by at least one byte. -/
theorem skipUnknown_advance {number : UInt32} {wireType : WireType} {c after : Cursor}
    (h : skipUnknown number wireType c = .ok after) :
    ∃ used, 1 ≤ used ∧ used ≤ c.size ∧ after = c.advance used := by
  unfold skipUnknown at h
  split at h
  · simp at h
  next hr =>
    obtain ⟨used, hpos, hle, hrest⟩ := skipRecord_advance hr
    split at h
    · obtain ⟨more, hmore, hafter⟩ := skipGroups_advance h
      rw [hrest, Cursor.size_advance] at hmore
      exact ⟨used + more, by omega, by omega, by rw [hafter, hrest, Cursor.advance_advance]⟩
    · exact ⟨used, hpos, hle, by rw [← hrest, ← Except.ok.inj h]⟩

end ProtoStub.Wire
