import Mathlib
import ProtoStub.Proofs.Decision
import ProtoStub.Proofs.RecordNumbers

/-!
# Markers of groups

A group is opened and closed by markers, which are tags without a value. Bytes that are read as a
message are a sequence of records and markers (`marks?`), and no group is open at their end. Groups
are only counted on the way: a closing marker closes the innermost open group, whatever the numbers
of the two are, and one outside all groups closes nothing (`Mark.openAfter`). Bytes behind a message
whose records have unknown numbers are passed over exactly if they leave no group open
(`groups_of_decode`).

The reader takes a group as a whole, so that its marks are those of a run of `skipGroups`. That run
and the count of the open groups are followed together, in one direction for bytes that are read
(`marks?_of_skipGroups`) and in the other for bytes that leave no group open
(`skipGroups_of_marks?`).
-/

namespace ProtoStub.Wire

/-! ## Records and markers one by one -/

/-- A record or a marker of a group: its field number and its wire type. -/
abbrev Mark : Type := UInt32 × WireType

/-- The record at a cursor, a marker being one by itself, and the cursor after it. -/
def nextMark? (c : Cursor) : Option (Mark × Cursor) :=
  match c.varint? with
  | none => none
  | some (tag, after) =>
    match splitTag tag with
    | .error _ => none
    | .ok mark =>
      match skipValue mark.2 0 after with
      | .error _ => none
      | .ok rest => some (mark, rest)

/-- Whether a value can be passed over does not hang on the position that a fault is reported at. -/
theorem skipValue_eq_ok_congr {wireType : WireType} {position : Nat} {c rest : Cursor}
    (h : skipValue wireType position c = .ok rest) (position' : Nat) :
    skipValue wireType position' c = .ok rest := by
  cases wireType with
  | startGroup | endGroup => exact h
  | varint =>
    simp only [skipValue] at h ⊢
    cases hv : c.varint? with
    | none => simp only [hv, reduceCtorEq] at h
    | some r => simpa only [hv] using h
  | i64 | i32 =>
    simp only [skipValue] at h ⊢
    split at h
    · cases h
    next hsize => rwa [if_neg hsize]
  | len =>
    simp only [skipValue] at h ⊢
    cases hv : c.varint? with
    | none => simp only [hv, reduceCtorEq] at h
    | some r =>
      simp only [hv] at h ⊢
      split at h
      · cases h
      next hsize => rwa [if_neg hsize]

theorem nextMark?_eq_some {c rest : Cursor} {mark : Mark} :
    nextMark? c = some (mark, rest) ↔ ∃ tag after, c.varint? = some (tag, after) ∧
      splitTag tag = .ok mark ∧ ∀ position, skipValue mark.2 position after = .ok rest := by
  unfold nextMark?
  constructor
  · intro h
    split at h
    · cases h
    next tag after htag =>
      split at h
      · cases h
      next mark' hsplit =>
        split at h
        · cases h
        next hvalue =>
          cases h
          exact ⟨tag, after, htag, hsplit, skipValue_eq_ok_congr hvalue⟩
  · rintro ⟨tag, after, htag, hsplit, hvalue⟩
    simp only [htag, hsplit, hvalue]

theorem nextMark?_of_skipRecord {origin : Nat} {c after rest : Cursor} {tag : UInt64}
    {number : UInt32} {mark : Mark} (htag : c.varint? = some (tag, after))
    (hsplit : splitTag tag = .ok mark) (h : skipRecord origin c = .ok (number, rest)) :
    nextMark? c = some (mark, rest) := by
  refine nextMark?_eq_some.2 ⟨tag, after, htag, hsplit, ?_⟩
  unfold skipRecord at h
  split at h
  · cases h
  simp only [htag, hsplit] at h
  split at h
  · cases h
  next hvalue =>
    cases h
    exact skipValue_eq_ok_congr hvalue

theorem bytes_ne_nil_of_nextMark? {c rest : Cursor} {mark : Mark}
    (h : nextMark? c = some (mark, rest)) : c.bytes ≠ [] := by
  obtain ⟨tag, after, htag, -, -⟩ := nextMark?_eq_some.1 h
  exact bytes_ne_nil_of_varint (show c.varint = .ok (tag, after) by rw [Cursor.varint, htag])

theorem skipRecord_of_nextMark? {c rest : Cursor} {mark : Mark}
    (h : nextMark? c = some (mark, rest)) (origin : Nat) :
    skipRecord origin c = .ok (mark.1, rest) := by
  obtain ⟨tag, after, htag, hsplit, hvalue⟩ := nextMark?_eq_some.1 h
  have hne : ¬ c.bytes.isEmpty = true := by
    rw [List.isEmpty_iff]
    exact bytes_ne_nil_of_nextMark? h
  simp only [skipRecord, if_neg hne, htag, hsplit, hvalue]

theorem nextMark?_size_lt {c rest : Cursor} {mark : Mark}
    (h : nextMark? c = some (mark, rest)) : rest.size < c.size := by
  obtain ⟨used, hpos, hle, rfl⟩ := skipRecord_advance (skipRecord_of_nextMark? h 0)
  rw [Cursor.size_advance]
  omega

/-- The records and markers that the bytes are, also those inside groups, in their order. -/
def marks? (c : Cursor) : Option (List Mark) :=
  if c.bytes.isEmpty then some []
  else
    match h : nextMark? c with
    | none => none
    | some (mark, rest) =>
      have : rest.size < c.size := nextMark?_size_lt h
      (marks? rest).map (mark :: ·)
termination_by c.size

theorem marks?_nil {c : Cursor} (h : c.bytes = []) : marks? c = some [] := by
  rw [marks?, h]
  rfl

theorem marks?_eq {c rest : Cursor} {mark : Mark} (h : nextMark? c = some (mark, rest)) :
    marks? c = (marks? rest).map (mark :: ·) := by
  have hne : ¬ c.bytes.isEmpty = true := by
    rw [List.isEmpty_iff]
    exact bytes_ne_nil_of_nextMark? h
  rw [marks?, if_neg hne]
  split
  next hnone =>
    rw [h] at hnone
    cases hnone
  next hsome =>
    rw [h] at hsome
    cases hsome
    rfl

theorem marks?_cases {c : Cursor} {marks : List Mark} (h : marks? c = some marks) :
    c.bytes = [] ∧ marks = [] ∨
      ∃ mark rest more, nextMark? c = some (mark, rest) ∧ marks? rest = some more ∧
        marks = mark :: more := by
  by_cases hnil : c.bytes = []
  · rw [marks?_nil hnil] at h
    cases h
    exact .inl ⟨hnil, rfl⟩
  · cases hmark : nextMark? c with
    | none =>
      have hne : ¬ c.bytes.isEmpty = true := by rwa [List.isEmpty_iff]
      rw [marks?, if_neg hne] at h
      split at h
      · cases h
      next hsome =>
        rw [hmark] at hsome
        cases hsome
    | some r =>
      obtain ⟨mark, rest⟩ := r
      rw [marks?_eq hmark] at h
      obtain ⟨more, hmore, rfl⟩ := Option.map_eq_some_iff.1 h
      exact .inr ⟨mark, rest, more, rfl, hmore, rfl⟩

/-! ## Open groups -/

/-- Whether a record opens or closes a group. -/
def Mark.IsMarker (mark : Mark) : Prop := mark.2 = .startGroup ∨ mark.2 = .endGroup

/-- The numbers of the open groups behind a record, the innermost first. A closing marker closes
the innermost group, whatever its number, and nothing where no group is open. -/
def Mark.openAfter (opened : List UInt32) (mark : Mark) : List UInt32 :=
  match mark.2 with
  | .startGroup => mark.1 :: opened
  | .endGroup => opened.tail
  | _ => opened

/-- The numbers of the groups that are still open at the end. -/
def stillOpen (opened : List UInt32) (marks : List Mark) : List UInt32 :=
  marks.foldl Mark.openAfter opened

/-- The records outside all groups. The opening marker of an outermost group is one of them. -/
def outside : List UInt32 → List Mark → List Mark
  | _, [] => []
  | [], mark :: rest => mark :: outside (mark.openAfter []) rest
  | number :: opened, mark :: rest => outside (mark.openAfter (number :: opened)) rest

/-- Every closing marker closes the group of its number that was opened last, and no group stays
open. -/
def ProperlyNested : List UInt32 → List Mark → Prop
  | opened, [] => opened = []
  | opened, mark :: rest =>
    (mark.2 = .endGroup → opened.head? = some mark.1) ∧ ProperlyNested (mark.openAfter opened) rest

theorem stillOpen_cons (opened : List UInt32) (mark : Mark) (rest : List Mark) :
    stillOpen opened (mark :: rest) = stillOpen (mark.openAfter opened) rest := rfl

theorem stillOpen_append (opened : List UInt32) (marks more : List Mark) :
    stillOpen opened (marks ++ more) = stillOpen (stillOpen opened marks) more :=
  List.foldl_append

theorem length_openAfter (number : UInt32) (opened : List UInt32) (mark : Mark) :
    (mark.openAfter (number :: opened)).length = mark.2.openAfter opened.length := by
  obtain ⟨n, wireType⟩ := mark
  cases wireType <;> rfl

/-- Passing over groups goes on behind every record with the groups that are open then. -/
theorem skipGroups_step {c rest : Cursor} {mark : Mark} (h : nextMark? c = some (mark, rest))
    (origin : Nat) (outer number : UInt32) (opened : List UInt32) :
    skipGroups origin outer (number :: opened).length c =
      skipGroups origin outer (mark.openAfter (number :: opened)).length rest := by
  obtain ⟨tag, after, htag, hsplit, -⟩ := nextMark?_eq_some.1 h
  have hne : ¬ c.bytes.isEmpty = true := by
    rw [List.isEmpty_iff]
    exact bytes_ne_nil_of_nextMark? h
  have hrecord := skipRecord_of_nextMark? h origin
  rw [length_openAfter, List.length_cons, skipGroups, if_neg hne]
  simp only [htag, hsplit]
  split
  next he =>
    rw [hrecord] at he
    cases he
  next he =>
    rw [hrecord] at he
    cases he
    rfl

theorem exists_nextMark?_of_skipGroups {origin : Nat} {outer number : UInt32}
    {opened : List UInt32} {c rest : Cursor}
    (h : skipGroups origin outer (number :: opened).length c = .ok rest) :
    ∃ mark next, nextMark? c = some (mark, next) := by
  rw [List.length_cons, skipGroups] at h
  split at h
  · cases h
  split at h
  · cases h
  next tag after htag =>
    split at h
    · cases h
    next hsplit =>
      split at h
      · cases h
      next hrecord => exact ⟨_, _, nextMark?_of_skipRecord htag hsplit hrecord⟩

/-- What is passed over until all groups are closed are records and markers that close them. -/
theorem marks?_of_skipGroups {origin : Nat} {outer : UInt32} {opened : List UInt32}
    {c rest : Cursor} (h : skipGroups origin outer opened.length c = .ok rest) {more : List Mark}
    (hmore : marks? rest = some more) :
    ∃ marks, marks? c = some (marks ++ more) ∧ stillOpen opened marks = [] ∧
      outside opened (marks ++ more) = outside [] more := by
  -- The induction is on the bytes that are left; every record takes some.
  induction hn : c.size using Nat.strongRecOn generalizing c opened with
  | _ n ih =>
    subst hn
    cases opened with
    | nil =>
      rw [List.length_nil, skipGroups] at h
      cases h
      exact ⟨[], hmore, rfl, rfl⟩
    | cons number opened =>
      obtain ⟨mark, next, hmark⟩ := exists_nextMark?_of_skipGroups h
      rw [skipGroups_step hmark] at h
      obtain ⟨marks, hmarks, hclosed, houtside⟩ := ih next.size (nextMark?_size_lt hmark) h rfl
      exact ⟨mark :: marks, by rw [marks?_eq hmark, hmarks]; rfl, hclosed, houtside⟩

/-- Where no group stays open, passing over the open ones ends. -/
theorem skipGroups_of_marks? {c : Cursor} {marks : List Mark} (h : marks? c = some marks)
    {opened : List UInt32} (hclosed : stillOpen opened marks = []) (origin : Nat) (outer : UInt32) :
    ∃ rest more, skipGroups origin outer opened.length c = .ok rest ∧ marks? rest = some more ∧
      stillOpen [] more = [] ∧ outside [] more = outside opened marks ∧ rest.size ≤ c.size := by
  induction marks generalizing c opened with
  | nil =>
    obtain rfl : opened = [] := hclosed
    exact ⟨c, [], by rw [List.length_nil, skipGroups], h, rfl, rfl, Nat.le_refl _⟩
  | cons mark marks ih =>
    cases opened with
    | nil =>
      exact ⟨c, mark :: marks, by rw [List.length_nil, skipGroups], h, hclosed, rfl, Nat.le_refl _⟩
    | cons number opened =>
      obtain ⟨-, hnil⟩ | ⟨_, next, _, hmark, hnext, heq⟩ := marks?_cases h
      · cases hnil
      · cases heq
        obtain ⟨rest, more, hskip, hmore, hclosed', houtside, hsize⟩ := ih hnext hclosed
        refine ⟨rest, more, ?_, hmore, hclosed', houtside, ?_⟩
        · rw [skipGroups_step hmark, hskip]
        · exact hsize.trans (nextMark?_size_lt hmark).le

/-- What is passed over as one record is the record, or an outermost group and what is in it. -/
theorem marks?_of_skipUnknown {c after rest : Cursor} {tag : UInt64} {mark : Mark}
    (htag : c.varint? = some (tag, after)) (hsplit : splitTag tag = .ok mark)
    (h : skipUnknown mark.1 mark.2 c = .ok rest) {more : List Mark}
    (hmore : marks? rest = some more) :
    ∃ marks, marks? c = some (marks ++ more) ∧ stillOpen [] marks = [] ∧
      outside [] (marks ++ more) = mark :: outside [] more := by
  unfold skipUnknown at h
  split at h
  · cases h
  next next hrecord =>
    have hmark := nextMark?_of_skipRecord htag hsplit hrecord
    split at h
    next hstart =>
      have hopen : mark.openAfter [] = [mark.1] := by rw [Mark.openAfter, hstart]
      have hskip : skipGroups c.offset mark.1 [mark.1].length next = .ok rest := h
      obtain ⟨marks, hmarks, hclosed, houtside⟩ := marks?_of_skipGroups hskip hmore
      refine ⟨mark :: marks, by rw [marks?_eq hmark, hmarks]; rfl, ?_, ?_⟩
      · rw [stillOpen_cons, hopen]
        exact hclosed
      · rw [List.cons_append, outside, hopen, houtside]
    next hother =>
      cases h
      have hopen : mark.openAfter [] = [] := by
        unfold Mark.openAfter
        split
        · exact absurd ‹_› hother
        · rfl
        · rfl
      refine ⟨[mark], by rw [marks?_eq hmark, hmore]; rfl, hopen, ?_⟩
      rw [List.singleton_append, outside, hopen]

/-- A record that leaves no group open is passed over. -/
theorem skipUnknown_of_marks? {c next : Cursor} {mark : Mark}
    (hmark : nextMark? c = some (mark, next)) {marks : List Mark}
    (hmarks : marks? next = some marks) (hclosed : stillOpen [] (mark :: marks) = []) :
    ∃ rest more, skipUnknown mark.1 mark.2 c = .ok rest ∧ marks? rest = some more ∧
      stillOpen [] more = [] ∧ outside [] (mark :: marks) = mark :: outside [] more ∧
      rest.size < c.size := by
  have hsize := nextMark?_size_lt hmark
  rw [stillOpen_cons] at hclosed
  rw [skipUnknown, skipRecord_of_nextMark? hmark, outside]
  simp only
  split
  next hstart =>
    have hopen : mark.openAfter [] = [mark.1] := by rw [Mark.openAfter, hstart]
    rw [hopen] at hclosed ⊢
    obtain ⟨rest, more, hskip, hmore, hclosed', houtside, hle⟩ :=
      skipGroups_of_marks? hmarks hclosed c.offset mark.1
    exact ⟨rest, more, hskip, hmore, hclosed', by rw [houtside], by omega⟩
  next hother =>
    have hopen : mark.openAfter [] = [] := by
      unfold Mark.openAfter
      split
      · exact absurd ‹_› hother
      · rfl
      · rfl
    rw [hopen] at hclosed ⊢
    exact ⟨next, marks, rfl, hmarks, hclosed, rfl, hsize⟩

end ProtoStub.Wire

namespace ProtoStub.Codec

open Wire

variable {codec : Codec}

/-! ## Messages -/

/-- A record of a known field is no marker of a group. -/
theorem not_isMarker_of_readSlot {slot : Slot} {mark : Mark} {c rest : Cursor}
    {occurrence : Occurrence} (h : codec.readSlot slot mark.2 c = .ok (occurrence, rest)) :
    ¬ mark.IsMarker := by
  rintro (hstart | hend)
  · exact (skipValue_of_readSlot h).2.1 hstart
  · rw [hend] at h
    unfold readSlot at h
    cases hform : slot.form with
    | nested nested => simp [hform] at h
    | scalar kind repeated =>
      have hkind : WireType.endGroup ≠ kind.wireType := by
        cases kind <;> simp [FieldKind.wireType]
      simp [hform, hkind] at h

theorem marks?_of_readRecord {slots : Slots} {c rest : Cursor} {occurrence : Occurrence}
    (h : codec.readRecord slots c = .ok (occurrence, rest)) {more : List Mark}
    (hmore : marks? rest = some more) :
    ∃ mark marks, marks? c = some (marks ++ more) ∧ stillOpen [] marks = [] ∧
      outside [] (marks ++ more) = mark :: outside [] more ∧
      (mark.IsMarker → slots mark.1 = none) := by
  unfold readRecord at h
  split at h
  · cases h
  next tag after htag =>
    split at h
    · cases h
    next number wireType hsplit =>
      split at h
      next hslot =>
        obtain ⟨_, hskip, hr⟩ := exists_of_map_eq_ok h
        cases hr
        obtain ⟨marks, hmarks, hclosed, houtside⟩ :=
          marks?_of_skipUnknown (varint?_of_varint htag) hsplit hskip hmore
        exact ⟨(number, wireType), marks, hmarks, hclosed, houtside, fun _ => hslot⟩
      next slot hslot =>
        have hmarker : ¬ Mark.IsMarker (number, wireType) := not_isMarker_of_readSlot h
        obtain ⟨hvalue, hgroup, -⟩ := skipValue_of_readSlot h
        have hskip := skipUnknown_of_skipValue htag hsplit hvalue hgroup
        obtain ⟨marks, hmarks, hclosed, houtside⟩ :=
          marks?_of_skipUnknown (varint?_of_varint htag) hsplit hskip hmore
        exact ⟨(number, wireType), marks, hmarks, hclosed, houtside, fun hm => absurd hm hmarker⟩

/-- Bytes that are read leave no group open, and the markers outside all groups have numbers that
are not known. -/
theorem marks?_of_decodeInto {slots : Slots} {c : Cursor} {m m' : Message}
    (h : codec.decodeInto slots c m = .ok m') :
    ∃ marks, marks? c = some marks ∧ stillOpen [] marks = [] ∧
      ∀ mark ∈ outside [] marks, mark.IsMarker → slots mark.1 = none := by
  induction hn : c.size using Nat.strongRecOn generalizing c m with
  | _ n ih =>
    subst hn
    by_cases hnil : c.bytes = []
    · exact ⟨[], marks?_nil hnil, rfl, fun mark hmark => absurd hmark List.not_mem_nil⟩
    · obtain ⟨occurrence, rest, next, hread, -, hrest⟩ := exists_step_of_decodeInto hnil h
      obtain ⟨more, hmore, hmoreClosed, hmoreOutside⟩ :=
        ih rest.size (readRecord_moved hread).1.size_lt hrest rfl
      obtain ⟨mark, marks, hmarks, hclosed, houtside, hunknown⟩ := marks?_of_readRecord hread hmore
      refine ⟨marks ++ more, hmarks, by rw [stillOpen_append, hclosed, hmoreClosed], ?_⟩
      rw [houtside, List.forall_mem_cons]
      exact ⟨hunknown, hmoreOutside⟩

/-- Records with unknown numbers that leave no group open are passed over. -/
theorem decodeInto_of_marks? {slots : Slots} {c : Cursor} {marks : List Mark}
    (h : marks? c = some marks) (hclosed : stillOpen [] marks = [])
    (hunknown : ∀ mark ∈ outside [] marks, slots mark.1 = none) (m : Message) :
    codec.decodeInto slots c m = .ok m := by
  induction hn : c.size using Nat.strongRecOn generalizing c marks with
  | _ n ih =>
    subst hn
    obtain ⟨hnil, -⟩ | ⟨mark, next, more, hmark, hnext, rfl⟩ := marks?_cases h
    · exact decodeInto_nil codec slots m hnil
    · obtain ⟨rest, more', hskip, hmore, hclosed', houtside, hsize⟩ :=
        skipUnknown_of_marks? hmark hnext hclosed
      rw [houtside, List.forall_mem_cons] at hunknown
      obtain ⟨tag, after, htag, hsplit, -⟩ := nextMark?_eq_some.1 hmark
      have hread : codec.readRecord slots c = .ok (.unknown, rest) := by
        simp only [readRecord, Cursor.varint, htag, hsplit, hunknown.1, hskip]
        rfl
      rw [decodeInto_eq codec slots m (bytes_ne_nil_of_nextMark? hmark), hread]
      exact ih rest.size hsize hmore hclosed' hunknown.2 rfl

/-- Records with unknown numbers are passed over exactly if they leave no group open. -/
theorem decodeInto_eq_ok_iff_of_marks? {slots : Slots} {c : Cursor} {marks : List Mark}
    (h : marks? c = some marks) (hunknown : ∀ mark ∈ outside [] marks, slots mark.1 = none)
    {m m' : Message} :
    codec.decodeInto slots c m = .ok m' ↔ m' = m ∧ stillOpen [] marks = [] := by
  constructor
  · intro hread
    obtain ⟨marks', hmarks', hclosed, -⟩ := marks?_of_decodeInto hread
    cases h.symm.trans hmarks'
    rw [decodeInto_of_marks? h hclosed hunknown] at hread
    exact ⟨(Except.ok.inj hread).symm, hclosed⟩
  · rintro ⟨rfl, hclosed⟩
    exact decodeInto_of_marks? h hclosed hunknown m'

theorem number_ne_of_slotsOf {decl : MessageDecl} {number : UInt32}
    (h : slotsOf decl number = none) : ∀ field ∈ decl.fields, field.info.number ≠ number := by
  intro field hf
  have hfind : decl.fieldByNumber? number = none := Option.map_eq_none_iff.1 h
  simpa using List.find?_eq_none.1 hfind field hf

/-- Nothing but records with numbers that a type does not declare is a new message of the type. -/
theorem decode_eq_create_of_marks? {typeName : String} {decl : MessageDecl}
    (htype : codec.message typeName = .ok decl) {bytes : List UInt8} {marks : List Mark}
    (h : marks? (.start bytes) = some marks) (hclosed : stillOpen [] marks = [])
    (hunknown : ∀ mark ∈ outside [] marks, ∀ field ∈ decl.fields, field.info.number ≠ mark.1) :
    codec.decode typeName bytes = codec.create typeName := by
  simp only [decode, create, htype, bind, Except.bind]
  cases codec.newMessage decl with
  | error e => rfl
  | ok start =>
    exact decodeInto_of_marks? h hclosed
      (fun mark hmark => slotsOf_eq_none (hunknown mark hmark)) start

/-- A tree that belongs to a person. -/
def ownedTree : Message :=
  ⟨"grove.Tree", [("branches", .list []), ("marks", .map []), ("person", .string "x"),
    ("treeHeight", .double .zero)]⟩

/-- A tree with nothing but its defaults. -/
def newTree : Message :=
  ⟨"grove.Tree", [("branches", .list []), ("marks", .map []), ("treeHeight", .double .zero)]⟩

theorem create_newTree : (grove .double {}).create "grove.Tree" = .ok newTree := by
  cbv

end ProtoStub.Codec
