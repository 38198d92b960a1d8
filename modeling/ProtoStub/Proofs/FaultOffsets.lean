import ProtoStub.Proofs.ReadingInto

/-!
# Where faults are reported

Bytes behind a message are refused for the same fault as by themselves (`follows_decodeInto`), and
the fault is reported as many bytes further on as there are before it (`decodeInto_shift`). Two
kinds of faults are reported elsewhere (`offset_of_fault`):

* a tag whose wire type does not exist is refused at offset 0, whatever stands before it;
* inside a group that is passed over, a record that cannot be passed over is reported relative to
  the start of the group as if it came first. Only the fault of a group that is not closed and of a
  tag that is no number are reported where they stand (`Error.ofGroup`).
-/

namespace ProtoStub

namespace Error

/-- Whether an error is the fault of a group with a number that is not closed, or of a tag that is
no number. -/
def ofGroup (number : UInt32) : Error → Bool
  | varint _ => true
  | wireFormat _ details => details = "unterminated group " ++ toString number.toNat
  | _ => false

/-- What an error inside a group becomes when `count` bytes come before it. -/
def movedInGroup (number : UInt32) (count : Nat) (e : Error) : Error :=
  if e.ofGroup number then e.shift count else e

theorem ofGroup_of_mem_wireTypeFaults {e : Error} (h : e ∈ wireTypeFaults) (number : UInt32) :
    e.ofGroup number = false := by
  have hlocated := located_unterminated (toString number.toNat)
  simp only [wireTypeFaults, List.mem_cons, List.not_mem_nil, or_false] at h
  rcases h with rfl | rfl
  · simpa only [ofGroup, decide_eq_false_iff_not] using hlocated.1.symm
  · simpa only [ofGroup, decide_eq_false_iff_not] using hlocated.2.symm

/-- The text about a group that is not closed is the only one with its first letter. -/
theorem ofGroup_eq_false {details : String} (h : details.toList.head? ≠ some 'u')
    (number : UInt32) (offset : Nat) : (wireFormat offset details).ofGroup number = false := by
  simp only [ofGroup, decide_eq_false_iff_not]
  rintro rfl
  exact h (by rw [String.toList_append]; rfl)

end Error

namespace Wire

/-! ## Groups that are still open -/

/-- The start of a group: its opening tag, and perhaps records and the start of another group
inside it. After it `depth + 1` groups are open. -/
inductive Opening (number : UInt32) : Nat → List UInt8 → Prop
  | tag {opening : List UInt8} (isTag : IsTag opening number .startGroup) :
      Opening number 0 opening
  | inside {depth : Nat} {before records opening : List UInt8} {numbers : List UInt32}
      {inner : UInt32} (outer : Opening number depth before) (complete : Records numbers records)
      (isTag : IsTag opening inner .startGroup) :
      Opening number (depth + 1) (before ++ records ++ opening)

theorem skipUnknown_opening {number : UInt32} {depth : Nat} {before : List UInt8}
    (h : Opening number depth before) (offset : Nat) (more : List UInt8) :
    skipUnknown number .startGroup ⟨offset, before ++ more⟩ =
      skipGroups offset number (depth + 1) ⟨offset + before.length, more⟩ := by
  induction h generalizing more with
  | @tag opening isTag =>
    have hrecord : skipRecord offset ⟨offset, opening ++ [] ++ more⟩ =
        .ok (number, ⟨offset + (opening ++ []).length, more⟩) :=
      skipRecord_eq isTag (fun _ _ => rfl) offset offset
    rw [List.append_nil] at hrecord
    rw [skipUnknown, hrecord]
  | @inside depth before records opening numbers inner _ complete isTag ih =>
    rw [List.append_assoc, List.append_assoc, ih, skipGroups_records complete,
      skipGroups_marker isTag (.inl rfl), WireType.openAfter]
    simp only [List.length_append, Nat.add_assoc]

theorem Opening.exists_tag {number : UInt32} {depth : Nat} {before : List UInt8}
    (h : Opening number depth before) :
    ∃ opening rest, before = opening ++ rest ∧ IsTag opening number .startGroup := by
  induction h with
  | tag isTag => exact ⟨_, [], (List.append_nil _).symm, isTag⟩
  | @inside depth before records innermost numbers inner _ _ _ ih =>
    obtain ⟨opening, rest, rfl, isTag⟩ := ih
    exact ⟨opening, rest ++ records ++ innermost, by simp only [List.append_assoc], isTag⟩

/-! ## Faults inside a group -/

theorem exists_splitTag_of_mem {e : Error} (h : e ∈ Error.wireTypeFaults) :
    ∃ tag, splitTag tag = .error e := by
  simp only [Error.wireTypeFaults, List.mem_cons, List.not_mem_nil, or_false] at h
  rcases h with rfl | rfl
  · exact ⟨14, by decide +kernel⟩
  · exact ⟨15, by decide +kernel⟩

theorem ofGroup_of_splitTag {tag : UInt64} {e : Error} (h : splitTag tag = .error e)
    (number : UInt32) : e.ofGroup number = false := by
  rcases splitTag_eq_error h with hfault | ⟨n, rfl⟩
  · exact Error.ofGroup_of_mem_wireTypeFaults hfault number
  · rfl

theorem ofGroup_of_skipValue {wireType : WireType} {position : Nat} {c : Cursor} {e : Error}
    (h : skipValue wireType position c = .error e) (number : UInt32) :
    e.ofGroup number = false := by
  unfold skipValue at h
  split at h
  · split at h
    · cases h
      exact Error.ofGroup_eq_false (by decide) number position
    · cases h
  · split at h
    · cases h
      exact Error.ofGroup_eq_false (by decide) number position
    · cases h
  · split at h
    · cases h
      exact Error.ofGroup_eq_false (by decide) number position
    · split at h
      · cases h
        exact Error.ofGroup_eq_false (by simp [String.toList_append]) number position
      · cases h
  · cases h
  · cases h
  · split at h
    · cases h
      exact Error.ofGroup_eq_false (by decide) number position
    · cases h

theorem ofGroup_of_skipRecord {origin : Nat} {c : Cursor} {e : Error}
    (h : skipRecord origin c = .error e) (number : UInt32) : e.ofGroup number = false := by
  unfold skipRecord at h
  split at h
  · cases h
    exact Error.ofGroup_eq_false (by decide) number origin
  split at h
  · cases h
    exact Error.ofGroup_eq_false (by decide) number origin
  split at h
  next ht =>
    cases h
    exact ofGroup_of_splitTag ht number
  split at h
  next hv =>
    cases h
    exact ofGroup_of_skipValue hv number
  · cases h

/-- Inside a group, the faults of records are reported without regard to what comes before them. -/
theorem skipGroups_inside (origin : Nat) (number : UInt32) (depth : Nat) (c : Cursor)
    (count : Nat) :
    skipGroups origin number depth (c.shift count) =
      relocate (Error.movedInGroup number count) (·.shift count)
        (skipGroups origin number depth c) := by
  have hkeep {e : Error} (h : e.ofGroup number = false) : e.movedInGroup number count = e := by
    rw [Error.movedInGroup, if_neg (by simp [h])]
  refine skipGroups_shift ?_ ?_ ?_ ?_ depth c
  · intro offset
    simp [Error.movedInGroup, Error.ofGroup, Error.shift]
  · intro offset
    rfl
  · intro tag e ht
    exact hkeep (ofGroup_of_splitTag ht number)
  · intro c
    have hshift := skipRecord_shift origin c 0 count
    rw [Nat.add_zero] at hshift
    rw [hshift]
    cases hr : skipRecord origin c with
    | error e =>
      simp only [relocate, Error.moved, Error.shift_zero, ite_self,
        hkeep (ofGroup_of_skipRecord hr number)]
    | ok r => rfl

end Wire

namespace Codec

open Wire

variable {codec : Codec}

/-! ## Faults behind a message -/

theorem decode_append_error {typeName : String} {a b : List UInt8} {m : Message} {e : Error}
    (ha : codec.decode typeName a = .ok m) (hb : codec.decode typeName b = .error e)
    (hoffset : e.offset?.isSome = true) :
    codec.decode typeName (a ++ b) = .error (e.moved a.length) := by
  cases htype : codec.message typeName with
  | error fault =>
    simp only [decode, htype] at ha
    cases ha
  | ok decl =>
    cases hnew : codec.newMessage decl with
    | error fault =>
      simp only [decode, htype, hnew] at ha
      cases ha
    | ok start =>
      simp only [decode, htype, hnew] at hb
      have hinto := decodeInto_eq_error_of_covered hb hoffset (coveredBy_of_newMessage hnew m)
      have hcursor : (⟨a.length, b⟩ : Cursor) = (Cursor.start b).shift a.length := by
        simp [Cursor.start, Cursor.shift]
      rw [decode_append htype ha, hcursor, decodeInto_shift, hinto, relocate]

theorem decodeInto_unknown_error {tag rest : List UInt8} {number : UInt32} {wireType : WireType}
    (htag : IsTag tag number wireType) {slots : Slots} (hslot : slots number = none)
    {offset : Nat} {e : Error}
    (hskip : skipUnknown number wireType ⟨offset, tag ++ rest⟩ = .error e) (m : Message) :
    codec.decodeInto slots ⟨offset, tag ++ rest⟩ m = .error e := by
  obtain ⟨v, hvarint, hsplit⟩ := htag.exists_tag
  have hne : (⟨offset, tag ++ rest⟩ : Cursor).bytes ≠ [] := by simp [hvarint.ne_nil]
  rw [decodeInto_eq codec slots m hne]
  simp only [readRecord, Cursor.varint, hvarint.varint?_eq, hsplit, hslot, hskip]
  rfl

/-- A group that nobody knows and that cannot be passed over is refused for that. -/
theorem decode_append_group {typeName : String} {decl : MessageDecl}
    (htype : codec.message typeName = .ok decl) {a : List UInt8} {m : Message}
    (ha : codec.decode typeName a = .ok m) {number : UInt32}
    (hnumber : ∀ field ∈ decl.fields, field.info.number ≠ number) {depth : Nat}
    {before more : List UInt8} (hbefore : Opening number depth before) {e : Error}
    (hskip : skipUnknown number .startGroup ⟨a.length, before ++ more⟩ = .error e) :
    codec.decode typeName (a ++ (before ++ more)) = .error e := by
  obtain ⟨opening, rest, rfl, isTag⟩ := hbefore.exists_tag
  rw [List.append_assoc] at hskip
  rw [decode_append htype ha, List.append_assoc]
  exact decodeInto_unknown_error isTag (slotsOf_eq_none hnumber) hskip m

theorem skipUnknown_insert {number : UInt32} {depth : Nat} {before : List UInt8}
    (hbefore : Opening number depth before) {numbers : List UInt32} {records : List UInt8}
    (hrecords : Records numbers records) {offset : Nat} {more : List UInt8} {e : Error}
    (hskip : skipUnknown number .startGroup ⟨offset, before ++ more⟩ = .error e) :
    skipUnknown number .startGroup ⟨offset, before ++ (records ++ more)⟩ =
      .error (e.movedInGroup number records.length) := by
  rw [skipUnknown_opening hbefore] at hskip
  have hshift := skipGroups_inside offset number (depth + 1) ⟨offset + before.length, more⟩
    records.length
  rw [hskip] at hshift
  rw [skipUnknown_opening hbefore, skipGroups_records hrecords]
  exact hshift

/-- The tag of one byte. -/
theorem isTag_byte {b : UInt8} {number : UInt32} {wireType : WireType} (hlow : b < 128)
    (hcode : (UInt64.ofNat b.toNat).toNat % 8 = wireType.code)
    (hbits : UInt32.ofNat ((UInt64.ofNat b.toNat).toNat / 8) = number)
    (hnumber : IsFieldNumber number) : IsTag [b] number wireType :=
  ⟨⟨_, .intro (.last hlow) (by simp), hcode, hbits⟩, hnumber⟩

theorem records_number : Records [1] ([8] ++ [1] ++ []) :=
  .value (isTag_byte (by decide) (by decide) (by decide) (by decide))
    (.varint (.intro (.last (by decide)) (by decide))) .nil

/-- The opening tag of field 9, a number, and the opening tag of field 10 inside the group. -/
theorem opening_nested : Opening 9 1 ([75] ++ [8, 1] ++ [83]) := by
  have houter : IsTag [75] 9 .startGroup :=
    isTag_byte (by decide) (by decide) (by decide) (by decide)
  have hinner : IsTag [83] 10 .startGroup :=
    isTag_byte (by decide) (by decide) (by decide) (by decide)
  exact .inside (.tag houter) records_number hinner

end Codec
end ProtoStub
