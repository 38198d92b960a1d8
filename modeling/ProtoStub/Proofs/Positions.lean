import Mathlib
import ProtoStub.Proofs.GroupMarkers

/-!
# Positions of readers and loops

A reader that succeeds has taken at least one byte and none that are not there (`Cursor.Moved`), and
a body that it hands on is the end of what it took (`Cursor.TakesBody`). A loop over the bytes of a
cursor is given by its rounds, a relation between states that start with the cursor where the round
begins. Once every round moves the cursor (`Advancing`), every round stands at a position in the
bytes of the loop and ends at a later one (`runsInside`), and what the loop computes can be read off
the state in which it stops (`run_eq_ok_iff`).

There are three loops: over the records of a message or a map entry (`Codec.RecordRound`), over the
values in one body (`Codec.PackedRound`) and over what stands in a group that is passed over
(`GroupRound`). The first two stop at the end of their bytes. The third stops directly behind the
marker that closes the outermost group, and more bytes may follow.
-/

namespace ProtoStub.Wire

open Relation (ReflTransGen)

/-! ## Bodies -/

namespace Cursor

/-- Some bytes of `c` were taken, up to `rest`, and `inner` stands before the last of them. -/
def TakesBody (c inner rest : Cursor) : Prop :=
  ∃ used, 1 ≤ used ∧ used ≤ c.size ∧ rest = c.advance used ∧ inner.size < used ∧
    inner.offset = c.offset + used - inner.size ∧
    inner.bytes = (c.bytes.take used).drop (used - inner.size)

theorem takesBody_of_body {c inner rest : Cursor} (h : c.body = .ok (inner, rest)) :
    TakesBody c inner rest := by
  unfold body at h
  split at h
  · cases h
  next length after hv =>
    obtain ⟨used, hpos, hle, rfl⟩ := varint?_advance hv
    split at h
    next hl =>
      cases h
      have hfits : used + length.toNat ≤ c.size := by
        rw [size_advance] at hl
        omega
      have hsize : ((c.advance used).window length.toNat).size = length.toNat := by
        rw [size_window]
        exact Nat.min_eq_left hl
      refine ⟨used + length.toNat, by omega, hfits, advance_advance _ _ _, ?_, ?_, ?_⟩
      · rw [hsize]
        omega
      · rw [hsize, ← Nat.add_assoc, Nat.add_sub_cancel]
        rfl
      · rw [hsize, Nat.add_sub_cancel, List.drop_take, Nat.add_sub_cancel_left]
        rfl
    · cases h

/-- A body stays the end of what is taken when bytes in front of it are taken along. -/
theorem TakesBody.of_moved {c mid inner rest : Cursor} (hmid : Moved c mid)
    (h : TakesBody mid inner rest) : TakesBody c inner rest := by
  obtain ⟨skipped, hskipped, hskippedLe, rfl⟩ := hmid
  obtain ⟨used, hpos, hle, rfl, hsize, hoffset, hbytes⟩ := h
  rw [size_advance] at hle
  refine ⟨skipped + used, by omega, by omega, advance_advance _ _ _, by omega, ?_, ?_⟩
  · rw [hoffset, ← Nat.add_assoc]
    rfl
  · have hskip : skipped + used - inner.size = skipped + (used - inner.size) := by omega
    have htake : skipped + used - (skipped + (used - inner.size)) =
        used - (used - inner.size) := by
      omega
    rw [hbytes, advance, List.drop_take, List.drop_take, List.drop_drop, hskip, htake]

end Cursor

/-! ## Loops -/

/-- Every round of a loop moves the cursor. -/
def Advancing {σ : Type} (round : Cursor × σ → Cursor × σ → Prop) : Prop :=
  ∀ ⦃s s'⦄, round s s' → Cursor.Moved s.1 s'.1

/-- The rounds of a loop over `c` that begins with the state `start` stand at positions in the bytes
of `c` and end at later ones, and what follows a tag there starts at a position as well. -/
def RunsInside {σ : Type} (round : Cursor × σ → Cursor × σ → Prop) (c : Cursor)
    (start : Cursor × σ) : Prop :=
  ∀ s, ReflTransGen round start s → ∃ position ≤ c.size, s.1 = c.advance position ∧
    (∀ tag after, s.1.varint = .ok (tag, after) →
      ∃ behind, position < behind ∧ behind ≤ c.size ∧ after = c.advance behind) ∧
    ∀ s', round s s' → ∃ next, position < next ∧ next ≤ c.size ∧ s'.1 = c.advance next

theorem Cursor.Moved.of_advance {c rest : Cursor} {position : Nat} (hle : position ≤ c.size)
    (h : Moved (c.advance position) rest) :
    ∃ next, position < next ∧ next ≤ c.size ∧ rest = c.advance next := by
  obtain ⟨used, hpos, hused, rfl⟩ := h
  rw [size_advance] at hused
  exact ⟨position + used, by omega, by omega, advance_advance _ _ _⟩

section Rounds

variable {σ : Type} {round : Cursor × σ → Cursor × σ → Prop} {c : Cursor} {start s : Cursor × σ}

theorem exists_position_of_rounds (hround : Advancing round)
    (hstart : ∃ position ≤ c.size, start.1 = c.advance position)
    (h : ReflTransGen round start s) : ∃ position ≤ c.size, s.1 = c.advance position := by
  induction h with
  | refl => exact hstart
  | @tail mid s _ hlast ih =>
    obtain ⟨position, hle, hmid⟩ := ih
    have hmoved := hround hlast
    rw [hmid] at hmoved
    obtain ⟨next, -, hnext, hs⟩ := hmoved.of_advance hle
    exact ⟨next, hnext, hs⟩

theorem runsInside (hround : Advancing round)
    (hstart : ∃ position ≤ c.size, start.1 = c.advance position) : RunsInside round c start := by
  intro s hs
  obtain ⟨position, hle, hposition⟩ := exists_position_of_rounds hround hstart hs
  refine ⟨position, hle, hposition, fun tag after htag => ?_, fun s' hs' => ?_⟩
  · rw [hposition] at htag
    exact (Cursor.moved_of_varint htag).of_advance hle
  · have hmoved := hround hs'
    rw [hposition] at hmoved
    exact hmoved.of_advance hle

theorem exists_position_self (c : Cursor) : ∃ position ≤ c.size, c = c.advance position :=
  ⟨0, Nat.zero_le _, (Cursor.advance_zero c).symm⟩

/-- A loop that is at the end of its bytes has reached the last position. -/
theorem eq_advance_size_of_rounds (hround : Advancing round) (h : ReflTransGen round start s)
    (hnil : s.1.bytes = []) : s.1 = start.1.advance start.1.size := by
  obtain ⟨position, hle, hposition⟩ :=
    exists_position_of_rounds hround (exists_position_self start.1) h
  have hsize : (start.1.advance position).size = 0 := by
    rw [← hposition, Cursor.size, hnil, List.length_nil]
  rw [Cursor.size_advance] at hsize
  rw [hposition, show position = start.1.size by omega]

/-- A loop computes what it computes from the state in which it stops. -/
theorem run_eq_ok_iff {α : Type} {run : Cursor × σ → Except Error α} {Done : Cursor × σ → Prop}
    (hround : Advancing round) (hrun : ∀ {s s'}, round s s' → run s = run s')
    (hnext : ∀ {s a}, run s = .ok a → Done s ∨ ∃ s', round s s') (start : Cursor × σ) (a : α) :
    run start = .ok a ↔ ∃ last, ReflTransGen round start last ∧ Done last ∧ run last = .ok a := by
  constructor
  · intro h
    -- Every round leaves fewer bytes, so the induction is on those that are left.
    induction hn : start.1.size using Nat.strongRecOn generalizing start with
    | _ n ih =>
      rcases hnext h with hdone | ⟨s', hs'⟩
      · exact ⟨start, .refl, hdone, h⟩
      · have hlt : s'.1.size < n := hn ▸ (hround hs').size_lt
        obtain ⟨last, hlast, hdone, hresult⟩ := ih _ hlt s' (hrun hs' ▸ h) rfl
        exact ⟨last, .head hs' hlast, hdone, hresult⟩
  · rintro ⟨last, hlast, -, hresult⟩
    induction hlast using ReflTransGen.head_induction_on with
    | refl => exact hresult
    | head hs' _ ih => exact (hrun hs').trans ih

end Rounds

/-! ## Groups -/

/-- One round of the loop over what stands in `depth + 1` open groups: a record or a marker. -/
inductive GroupRound : Cursor × Nat → Cursor × Nat → Prop
  | mk {c rest : Cursor} {mark : Mark} (depth : Nat) (hmark : nextMark? c = some (mark, rest)) :
      GroupRound (c, depth + 1) (rest, mark.2.openAfter depth)

theorem advancing_groupRound : Advancing GroupRound := by
  rintro _ _ ⟨depth, hmark⟩
  exact skipRecord_advance (skipRecord_of_nextMark? hmark 0)

/-- Groups are passed over by rounds until none is open. -/
theorem skipGroups_eq_ok_iff (origin : Nat) (outer : UInt32) (depth : Nat) (c rest : Cursor) :
    skipGroups origin outer depth c = .ok rest ↔
      ReflTransGen GroupRound (c, depth) (rest, 0) := by
  have hrun : ∀ {s s' : Cursor × Nat}, GroupRound s s' →
      skipGroups origin outer s.2 s.1 = skipGroups origin outer s'.2 s'.1 := by
    rintro _ _ ⟨depth, hmark⟩
    -- The numbers of the open groups do not matter here, only how many there are.
    have hstep := skipGroups_step hmark origin outer outer (List.replicate depth outer)
    rwa [length_openAfter, List.length_cons, List.length_replicate] at hstep
  have hnext : ∀ {s : Cursor × Nat} {rest : Cursor}, skipGroups origin outer s.2 s.1 = .ok rest →
      s.2 = 0 ∨ ∃ s', GroupRound s s' := by
    rintro ⟨c, _ | depth⟩ rest h
    · exact .inl rfl
    · have hopen : skipGroups origin outer (outer :: List.replicate depth outer).length c =
          .ok rest := by
        rwa [List.length_cons, List.length_replicate]
      obtain ⟨mark, next, hmark⟩ := exists_nextMark?_of_skipGroups hopen
      exact .inr ⟨_, .mk depth hmark⟩
  have hloop := run_eq_ok_iff advancing_groupRound hrun hnext (c, depth) rest
  rw [hloop]
  constructor
  · rintro ⟨⟨last, _⟩, hlast, rfl, hresult⟩
    rw [skipGroups] at hresult
    cases hresult
    exact hlast
  · intro h
    exact ⟨_, h, rfl, by rw [skipGroups]⟩

theorem skipUnknown_eq_ok_iff (number : UInt32) (wireType : WireType) (c rest : Cursor) :
    skipUnknown number wireType c = .ok rest ↔
      ∃ number' first, skipRecord c.offset c = .ok (number', first) ∧
        if wireType = .startGroup then ReflTransGen GroupRound (first, 1) (rest, 0)
        else rest = first := by
  unfold skipUnknown
  cases hrecord : skipRecord c.offset c with
  | error e => simp
  | ok r =>
    obtain ⟨number', first⟩ := r
    cases wireType with
    | startGroup => simp [skipGroups_eq_ok_iff]
    | varint | i64 | len | endGroup | i32 => simp [eq_comm]

/-- The last round of a loop over groups is the marker that closes the outermost one. -/
theorem exists_marker_of_groupRounds {depth : Nat} {c rest : Cursor}
    (h : ReflTransGen GroupRound (c, depth + 1) (rest, 0)) :
    ∃ last tag number, ReflTransGen GroupRound (c, depth + 1) (last, 1) ∧
      last.varint = .ok (tag, rest) ∧ splitTag tag = .ok (number, .endGroup) := by
  rcases h.cases_tail with heq | ⟨⟨last, opened⟩, hbefore, hround⟩
  · cases heq
  · generalize hs : (rest, 0) = s at hround
    obtain @⟨_, rest', ⟨number, wireType⟩, depth', hmark⟩ := hround
    obtain ⟨rfl, hclosed⟩ := Prod.mk.inj hs
    obtain ⟨tag, after, htag, hsplit, hvalue⟩ := nextMark?_eq_some.1 hmark
    -- Only a closing marker leaves fewer groups open than there were.
    cases wireType with
    | endGroup =>
      have hzero : depth' = 0 := hclosed.symm
      subst hzero
      cases hvalue 0
      exact ⟨last, tag, number, hbefore, by rw [Cursor.varint, htag], hsplit⟩
    | varint | i64 | len | startGroup | i32 => cases hclosed

end ProtoStub.Wire

namespace ProtoStub.Codec

open Relation (ReflTransGen)
open Wire

/-! ## Bodies in records -/

/-- What a record takes from `c` up to `rest`: the body of something nested is the end of it. -/
def Occurrence.Within (occurrence : Occurrence) (c rest : Cursor) : Prop :=
  match occurrence with
  | .body _ _ content => Cursor.TakesBody c content rest
  | _ => Cursor.Moved c rest

theorem within_of_readSlot {codec : Codec} {slot : Slot} {wireType : WireType} {c rest : Cursor}
    {occurrence : Occurrence} (h : codec.readSlot slot wireType c = .ok (occurrence, rest)) :
    occurrence.Within c rest := by
  have hmoved := (readSlot_moved h).1
  cases occurrence with
  | unknown | scalars => exact hmoved
  | body slot' nested content =>
    unfold readSlot at h
    split at h
    · split at h
      · obtain ⟨r, hbody, hr⟩ := exists_of_map_eq_ok h
        cases hr
        exact Cursor.takesBody_of_body hbody
      · cases h
    · split at h
      · split at h
        · cases h
        · obtain ⟨values, -, hr⟩ := exists_of_map_eq_ok h
          cases hr
      · split at h
        · obtain ⟨r, -, hr⟩ := exists_of_map_eq_ok h
          cases hr
        · cases h

theorem within_of_readRecord {codec : Codec} {slots : Slots} {c rest : Cursor}
    {occurrence : Occurrence} (h : codec.readRecord slots c = .ok (occurrence, rest)) :
    occurrence.Within c rest := by
  have hmoved := (readRecord_moved h).1
  cases occurrence with
  | unknown | scalars => exact hmoved
  | body slot nested content =>
    unfold readRecord at h
    split at h
    · cases h
    next tag after htag =>
      split at h
      · cases h
      split at h
      · obtain ⟨after', -, hr⟩ := exists_of_map_eq_ok h
        cases hr
      · exact .of_moved (Cursor.moved_of_varint htag) (within_of_readSlot h)

/-! ## The loop over records -/

/-- One round of the loop over the records of a message or a map entry. -/
inductive RecordRound (codec : Codec) (slots : Slots) : Cursor × Message → Cursor × Message → Prop
  | mk {c rest : Cursor} {m next : Message} {occurrence : Occurrence} (hne : c.bytes ≠ [])
      (hread : codec.readRecord slots c = .ok (occurrence, rest))
      (henter : codec.enter m occurrence = .ok next) : RecordRound codec slots (c, m) (rest, next)

theorem advancing_recordRound (codec : Codec) (slots : Slots) :
    Advancing (codec.RecordRound slots) := by
  rintro _ _ ⟨-, hread, -⟩
  exact (readRecord_moved hread).1

/-- A message is read by rounds to the end of its bytes. -/
theorem decodeInto_eq_ok_iff (codec : Codec) (slots : Slots) (c : Cursor) (m m' : Message) :
    codec.decodeInto slots c m = .ok m' ↔
      ReflTransGen (codec.RecordRound slots) (c, m) (c.advance c.size, m') := by
  have hround := codec.advancing_recordRound slots
  have hrun : ∀ {s s' : Cursor × Message}, codec.RecordRound slots s s' →
      codec.decodeInto slots s.1 s.2 = codec.decodeInto slots s'.1 s'.2 := by
    rintro _ _ ⟨hne, hread, henter⟩
    simp only [decodeInto_eq codec slots _ hne, hread, henter]
  have hnext : ∀ {s : Cursor × Message} {m' : Message}, codec.decodeInto slots s.1 s.2 = .ok m' →
      s.1.bytes = [] ∨ ∃ s', codec.RecordRound slots s s' := by
    rintro ⟨c, m⟩ m' h
    by_cases hnil : c.bytes = []
    · exact .inl hnil
    · obtain ⟨occurrence, rest, next, hread, henter, -⟩ := exists_step_of_decodeInto hnil h
      exact .inr ⟨_, .mk hnil hread henter⟩
  have hloop := run_eq_ok_iff hround hrun hnext (c, m) m'
  rw [hloop]
  constructor
  · rintro ⟨⟨last, m''⟩, hlast, hnil, hresult⟩
    rw [decodeInto_nil codec slots m'' hnil] at hresult
    cases hresult
    have hend : last = c.advance c.size := eq_advance_size_of_rounds hround hlast hnil
    rwa [hend] at hlast
  · intro h
    have hnil : (c.advance c.size).bytes = [] := List.drop_length
    exact ⟨_, h, hnil, decodeInto_nil codec slots m' hnil⟩

/-! ## The loop over values in one body -/

/-- One round of the loop over the values that fill a body, with the values read before. -/
inductive PackedRound (codec : Codec) (kind : FieldKind) (path : String) :
    Cursor × List Value → Cursor × List Value → Prop
  | mk {c rest : Cursor} {v : Value} (values : List Value) (hne : c.bytes ≠ [])
      (hread : codec.readScalar kind path c = .ok (v, rest)) :
      PackedRound codec kind path (c, values) (rest, values ++ [v])

theorem advancing_packedRound (codec : Codec) (kind : FieldKind) (path : String) :
    Advancing (codec.PackedRound kind path) := by
  rintro _ _ ⟨values, -, hread⟩
  exact readScalar_moved hread

theorem readPacked_nil (codec : Codec) (kind : FieldKind) (path : String) {c : Cursor}
    (h : c.bytes = []) : codec.readPacked kind path c = .ok [] := by
  rw [readPacked, h]
  rfl

/-- A value is read in front of those that fill the rest of the body. -/
theorem readPacked_eq {codec : Codec} {kind : FieldKind} {path : String} {c rest : Cursor}
    {v : Value} (hne : c.bytes ≠ []) (hread : codec.readScalar kind path c = .ok (v, rest)) :
    codec.readPacked kind path c = (v :: ·) <$> codec.readPacked kind path rest := by
  have hnonempty : ¬ c.bytes.isEmpty = true := by rwa [List.isEmpty_iff]
  rw [readPacked, if_neg hnonempty]
  split
  next he =>
    rw [hread] at he
    cases he
  next he =>
    rw [hread] at he
    cases he
    rfl

theorem exists_readScalar_of_readPacked {codec : Codec} {kind : FieldKind} {path : String}
    {c : Cursor} {values : List Value} (hne : c.bytes ≠ [])
    (h : codec.readPacked kind path c = .ok values) :
    ∃ v rest, codec.readScalar kind path c = .ok (v, rest) := by
  have hnonempty : ¬ c.bytes.isEmpty = true := by rwa [List.isEmpty_iff]
  rw [readPacked, if_neg hnonempty] at h
  split at h
  · cases h
  next v rest hread => exact ⟨v, rest, hread⟩

/-- The values of a body are read by rounds to the end of its bytes. -/
theorem readPacked_eq_ok_iff (codec : Codec) (kind : FieldKind) (path : String) (c : Cursor)
    (values : List Value) :
    codec.readPacked kind path c = .ok values ↔
      ReflTransGen (codec.PackedRound kind path) (c, []) (c.advance c.size, values) := by
  have hround := codec.advancing_packedRound kind path
  have hrun : ∀ {s s' : Cursor × List Value}, codec.PackedRound kind path s s' →
      (s.2 ++ ·) <$> codec.readPacked kind path s.1 =
        (s'.2 ++ ·) <$> codec.readPacked kind path s'.1 := by
    rintro _ _ @⟨c, rest, v, before, hne, hread⟩
    simp only [readPacked_eq hne hread]
    cases codec.readPacked kind path rest with
    | error e => rfl
    | ok more => simp [Functor.map, Except.map]
  have hnext : ∀ {s : Cursor × List Value} {values : List Value},
      (s.2 ++ ·) <$> codec.readPacked kind path s.1 = .ok values →
      s.1.bytes = [] ∨ ∃ s', codec.PackedRound kind path s s' := by
    rintro ⟨c, before⟩ values h
    by_cases hnil : c.bytes = []
    · exact .inl hnil
    · obtain ⟨more, hmore, -⟩ := exists_of_map_eq_ok h
      obtain ⟨v, rest, hread⟩ := exists_readScalar_of_readPacked hnil hmore
      exact .inr ⟨_, .mk before hnil hread⟩
  have hloop := run_eq_ok_iff hround hrun hnext (c, []) values
  have hstart : ([] ++ ·) <$> codec.readPacked kind path c = codec.readPacked kind path c :=
    id_map _
  rw [← hstart, hloop]
  constructor
  · rintro ⟨⟨last, before⟩, hlast, hnil, hresult⟩
    simp only [readPacked_nil codec kind path hnil] at hresult
    have hvalues : before = values := by
      simpa [Functor.map, Except.map] using hresult
    have hend : last = c.advance c.size := eq_advance_size_of_rounds hround hlast hnil
    rwa [hend, hvalues] at hlast
  · intro h
    have hnil : (c.advance c.size).bytes = [] := List.drop_length
    refine ⟨_, h, hnil, ?_⟩
    simp [readPacked_nil codec kind path hnil, Functor.map, Except.map]

/-! ## All readers and loops -/

/-- What is taken from a cursor and where the loops over it stand and stop. A reader takes at least
one byte and none that are not there, and a body that it hands on is a shorter end of them, which
starts as many bytes back as it has. The rounds of the loops stand at positions in the bytes, and
each ends further on than it began. A loop over records or values succeeds by reaching the end of
its bytes. Passing over a record that opens a group succeeds by reaching the other side of the
marker that closes it. -/
theorem position_laws (codec : Codec) (c : Cursor) :
    ((∀ origin number rest, skipRecord origin c = .ok (number, rest) → c.Moved rest) ∧
      (∀ number wireType rest, skipUnknown number wireType c = .ok rest → c.Moved rest) ∧
      (∀ inner rest, c.body = .ok (inner, rest) → c.TakesBody inner rest) ∧
      (∀ kind path v rest, codec.readScalar kind path c = .ok (v, rest) → c.Moved rest) ∧
      (∀ slot wireType occurrence rest,
        codec.readSlot slot wireType c = .ok (occurrence, rest) → occurrence.Within c rest) ∧
      ∀ slots occurrence rest,
        codec.readRecord slots c = .ok (occurrence, rest) → occurrence.Within c rest) ∧
    (∀ slots m, RunsInside (codec.RecordRound slots) c (c, m) ∧
      ∀ m', codec.decodeInto slots c m = .ok m' ↔
        ReflTransGen (codec.RecordRound slots) (c, m) (c.advance c.size, m')) ∧
    (∀ kind path, RunsInside (codec.PackedRound kind path) c (c, []) ∧
      ∀ values, codec.readPacked kind path c = .ok values ↔
        ReflTransGen (codec.PackedRound kind path) (c, []) (c.advance c.size, values)) ∧
    (∀ number wireType rest, skipUnknown number wireType c = .ok rest ↔
      ∃ number' first, skipRecord c.offset c = .ok (number', first) ∧
        if wireType = .startGroup then ReflTransGen GroupRound (first, 1) (rest, 0)
        else rest = first) ∧
    ∀ number first, skipRecord c.offset c = .ok (number, first) →
      RunsInside GroupRound c (first, 1) ∧
        ∀ rest, ReflTransGen GroupRound (first, 1) (rest, 0) →
          ∃ last tag number', ReflTransGen GroupRound (first, 1) (last, 1) ∧
            last.varint = .ok (tag, rest) ∧ splitTag tag = .ok (number', .endGroup) := by
  refine ⟨⟨fun _ _ _ => skipRecord_advance, fun _ _ _ => skipUnknown_advance,
      fun _ _ => Cursor.takesBody_of_body, fun _ _ _ _ => readScalar_moved,
      fun _ _ _ _ => within_of_readSlot, fun _ _ _ => within_of_readRecord⟩,
    fun slots m => ?_, fun kind path => ?_, fun number wireType rest => ?_,
    fun number first hfirst => ?_⟩
  · exact ⟨runsInside (codec.advancing_recordRound slots) (exists_position_self c),
      codec.decodeInto_eq_ok_iff slots c m⟩
  · exact ⟨runsInside (codec.advancing_packedRound kind path) (exists_position_self c),
      codec.readPacked_eq_ok_iff kind path c⟩
  · exact skipUnknown_eq_ok_iff number wireType c rest
  · obtain ⟨used, -, hle, hused⟩ := skipRecord_advance hfirst
    exact ⟨runsInside advancing_groupRound ⟨used, hle, hused⟩,
      fun rest => exists_marker_of_groupRounds⟩

/-- The codec of counters. -/
def counters : Codec := { messages := [counter], enums := [] }

/-- A group with a record in it and the count behind the group, and a body with a byte behind it. -/
theorem position_laws_counter :
    skipUnknown 9 .startGroup ⟨7, [75, 8, 1, 76, 8, 5]⟩ = .ok ⟨11, [8, 5]⟩ ∧
    Cursor.Moved ⟨7, [75, 8, 1, 76, 8, 5]⟩ ⟨11, [8, 5]⟩ ∧
    (∃ last tag number, ReflTransGen GroupRound (⟨8, [8, 1, 76, 8, 5]⟩, 1) (last, 1) ∧
      last.varint = .ok (tag, ⟨11, [8, 5]⟩) ∧ splitTag tag = .ok (number, .endGroup)) ∧
    ReflTransGen (counters.RecordRound (slotsOf counter))
      (⟨7, [75, 8, 1, 76, 8, 5]⟩, ⟨"Counter", []⟩)
      (⟨13, []⟩, ⟨"Counter", [("count", .int32 5)]⟩) ∧
    Cursor.body ⟨7, [2, 8, 5, 9]⟩ = .ok (⟨8, [8, 5]⟩, ⟨10, [9]⟩) ∧
    Cursor.TakesBody ⟨7, [2, 8, 5, 9]⟩ ⟨8, [8, 5]⟩ ⟨10, [9]⟩ := by
  have hskip : skipUnknown 9 .startGroup ⟨7, [75, 8, 1, 76, 8, 5]⟩ = .ok ⟨11, [8, 5]⟩ := by cbv
  have hfirst : skipRecord 7 ⟨7, [75, 8, 1, 76, 8, 5]⟩ = .ok (9, ⟨8, [8, 1, 76, 8, 5]⟩) := by
    decide +kernel
  have hgroup : counters.readRecord (slotsOf counter) ⟨7, [75, 8, 1, 76, 8, 5]⟩ =
      .ok (.unknown, ⟨11, [8, 5]⟩) := by
    cbv
  have hcount : counters.decodeInto (slotsOf counter) ⟨11, [8, 5]⟩ ⟨"Counter", []⟩ =
      .ok ⟨"Counter", [("count", .int32 5)]⟩ := by
    cbv
  have hread : counters.decodeInto (slotsOf counter) ⟨7, [75, 8, 1, 76, 8, 5]⟩ ⟨"Counter", []⟩ =
      .ok ⟨"Counter", [("count", .int32 5)]⟩ := by
    rw [decodeInto_eq _ _ _ (List.cons_ne_nil _ _)]
    simp only [hgroup, enter, hcount]
  have hbody : Cursor.body ⟨7, [2, 8, 5, 9]⟩ = .ok (⟨8, [8, 5]⟩, ⟨10, [9]⟩) := by decide +kernel
  obtain ⟨⟨-, hskips, -⟩, hrecords, -, hunknown, hgroups⟩ :=
    position_laws counters ⟨7, [75, 8, 1, 76, 8, 5]⟩
  obtain ⟨⟨-, -, hbodies, -⟩, -⟩ := position_laws counters ⟨7, [2, 8, 5, 9]⟩
  obtain ⟨number, first, hrecord, hrounds⟩ := (hunknown _ _ _).1 hskip
  cases hfirst.symm.trans hrecord
  obtain ⟨-, hmarker⟩ := hgroups _ _ hfirst
  exact ⟨hskip, hskips _ _ _ hskip, hmarker _ hrounds, ((hrecords _ _).2 _).1 hread, hbody,
    hbodies _ _ hbody⟩

/-- The loop over a group stops behind the group, also where that is not the end of the bytes. -/
theorem skipUnknown_before_end :
    skipUnknown 9 .startGroup (Cursor.start [75, 76, 8, 5]) = .ok ⟨2, [8, 5]⟩ ∧
      (⟨2, [8, 5]⟩ : Cursor) ≠ (Cursor.start [75, 76, 8, 5]).advance 4 ∧
      counters.decode "Counter" [75, 76, 8, 5] = .ok ⟨"Counter", [("count", .int32 5)]⟩ := by
  have htype : counters.message "Counter" = .ok counter := by cbv
  have hnew : counters.newMessage counter = .ok ⟨"Counter", [("count", .int32 0)]⟩ := by cbv
  have hgroup : counters.readRecord (slotsOf counter) (Cursor.start [75, 76, 8, 5]) =
      .ok (.unknown, ⟨2, [8, 5]⟩) := by
    cbv
  have hcount : counters.decodeInto (slotsOf counter) ⟨2, [8, 5]⟩
      ⟨"Counter", [("count", .int32 0)]⟩ = .ok ⟨"Counter", [("count", .int32 5)]⟩ := by
    cbv
  refine ⟨by cbv, by decide, ?_⟩
  simp only [decode, htype, hnew]
  rw [decodeInto_eq _ _ _ (List.cons_ne_nil _ _)]
  simp only [hgroup, enter, hcount]

end ProtoStub.Codec
