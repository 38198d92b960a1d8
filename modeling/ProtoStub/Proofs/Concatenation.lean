import Mathlib.Data.List.Permutation
import ProtoStub.Codec.Decode

/-!
# Reading is an action of concatenation

A message is read record by record, and the only thing that passes from one record to the
next is the message read so far. Two facts carry this file:

* a reader is *local* (`Local`): where it succeeds it has looked only at the bytes it took,
  so more bytes behind them change neither its result nor what it leaves over;
* a run is a chain of steps (`decodeInto_eq`): read one record, enter it into the message,
  go on with the rest.

Together they give `decodeInto_extend`: bytes that are read into a message can be followed
by more bytes, which are then read into the result.
-/

namespace ProtoStub.Wire

/-! ## Cursors with more bytes behind them -/

namespace Cursor

/-- The cursor with more bytes behind those that are still to be read. -/
def extend (c : Cursor) (more : List UInt8) : Cursor := ⟨c.offset, c.bytes ++ more⟩

@[simp] theorem offset_extend (c : Cursor) (more : List UInt8) :
    (c.extend more).offset = c.offset := rfl

@[simp] theorem size_extend (c : Cursor) (more : List UInt8) :
    (c.extend more).size = c.size + more.length := by
  simp [extend, size]

theorem advance_extend {c : Cursor} {count : Nat} (h : count ≤ c.size) (more : List UInt8) :
    (c.extend more).advance count = (c.advance count).extend more := by
  simp only [advance, extend, Cursor.mk.injEq, true_and]
  exact List.drop_append_of_le_length h

theorem window_extend {c : Cursor} {count : Nat} (h : count ≤ c.size) (more : List UInt8) :
    (c.extend more).window count = c.window count := by
  simp only [window, extend, Cursor.mk.injEq, true_and]
  exact List.take_append_of_le_length h

theorem isEmpty_extend {c : Cursor} (h : c.bytes.isEmpty = false) (more : List UInt8) :
    (c.extend more).bytes.isEmpty = false := by
  cases hb : c.bytes with
  | nil => simp [hb] at h
  | cons b rest => simp [extend, hb]

end Cursor

/-! ## Local readers -/

/-- A reader that looks only at the bytes it takes: more bytes behind them change nothing but
what is left over. -/
def Local {α : Type} (read : Cursor → Except Error (α × Cursor)) : Prop :=
  ∀ ⦃c rest : Cursor⦄ ⦃a : α⦄, read c = .ok (a, rest) → ∀ more : List UInt8,
    read (c.extend more) = .ok (a, rest.extend more)

/-- A local reader stays one when its result is changed and its rest is kept. -/
theorem Local.map {α β : Type} {read : Cursor → Except Error (α × Cursor)} (h : Local read)
    (f : α → β) : Local fun c => (fun r : α × Cursor => (f r.1, r.2)) <$> read c := by
  intro c rest b hc more
  obtain ⟨⟨a, after⟩, ha, hb⟩ := exists_of_map_eq_ok hc
  obtain ⟨rfl, rfl⟩ := Prod.mk.inj hb
  simp only [h ha more]
  rfl

theorem varintValue_append {limit : Nat} {bytes : List UInt8} {n used : Nat}
    (h : varintValue limit bytes = some (n, used)) (more : List UInt8) :
    varintValue limit (bytes ++ more) = some (n, used) := by
  fun_induction varintValue limit bytes generalizing n used with
  | case1 => simp at h
  | case2 => simp at h
  | case3 limit b rest hb => simpa [varintValue, hb] using h
  | case4 limit b rest hb ih =>
    obtain ⟨⟨k, used'⟩, hr, he⟩ := Option.map_eq_some_iff.1 h
    simp only [List.cons_append, varintValue, hb, if_false, ih hr]
    simpa using he

theorem Cursor.varint?_extend {c rest : Cursor} {v : UInt64} (h : c.varint? = some (v, rest))
    (more : List UInt8) : (c.extend more).varint? = some (v, rest.extend more) := by
  simp only [Cursor.varint?, decodeVarint, Option.map_map, Option.map_eq_some_iff,
    Function.comp_apply, Prod.mk.injEq, Prod.exists] at h ⊢
  obtain ⟨n, used, hn, hv, rfl⟩ := h
  refine ⟨n, used, varintValue_append hn more, hv, ?_⟩
  exact Cursor.advance_extend (varintValue_used hn).2 more

theorem Cursor.local_varint : Local Cursor.varint := by
  intro c rest v h more
  unfold Cursor.varint at h ⊢
  split at h
  · cases h
  next r hr =>
    cases h
    rw [Cursor.varint?_extend hr more]

theorem Cursor.local_word (count : Nat) (what : String) :
    Local fun c => c.word count what := by
  intro c rest n h more
  simp only [Cursor.word] at h ⊢
  split at h
  · cases h
  next hs =>
    cases h
    have hle : count ≤ c.size := by omega
    rw [if_neg (by rw [Cursor.size_extend]; omega), Cursor.advance_extend hle]
    simp only [Cursor.extend]
    rw [List.take_append_of_le_length hle]

theorem Cursor.local_word64 : Local Cursor.word64 :=
  (Cursor.local_word 8 "I64").map UInt64.ofNat

theorem Cursor.local_word32 : Local Cursor.word32 :=
  (Cursor.local_word 4 "I32").map UInt32.ofNat

/-- The cursor over a body ends with the body, so nothing behind it can be seen. -/
theorem Cursor.local_body : Local Cursor.body := by
  intro c rest inner h more
  unfold Cursor.body at h ⊢
  split at h
  · cases h
  next length after hv =>
    rw [Cursor.varint?_extend hv more]
    split at h
    next hl =>
      cases h
      simp only
      rw [if_pos (by rw [Cursor.size_extend]; omega), Cursor.window_extend hl,
        Cursor.advance_extend hl]
    · cases h

/-! ## Passing over unknown records -/

theorem skipValue_extend {wireType : WireType} {position : Nat} {c after : Cursor}
    (h : skipValue wireType position c = .ok after) (more : List UInt8) :
    skipValue wireType position (c.extend more) = .ok (after.extend more) := by
  cases wireType with
  | varint =>
    simp only [skipValue] at h ⊢
    split at h
    · cases h
    next hv =>
      cases h
      rw [Cursor.varint?_extend hv more]
  | i64 | i32 =>
    simp only [skipValue] at h ⊢
    split at h
    · cases h
    next hs =>
      cases h
      rw [if_neg (by rw [Cursor.size_extend]; omega), Cursor.advance_extend (by omega)]
  | len =>
    simp only [skipValue] at h ⊢
    split at h
    · cases h
    next length rest hv =>
      rw [Cursor.varint?_extend hv more]
      split at h
      · cases h
      next hs =>
        cases h
        simp only
        rw [if_neg (by rw [Cursor.size_extend]; omega), Cursor.advance_extend (by omega)]
  | startGroup | endGroup =>
    simp only [skipValue] at h ⊢
    cases h
    rfl

theorem local_skipRecord (origin : Nat) : Local (skipRecord origin) := by
  intro c rest number h more
  unfold skipRecord at h ⊢
  split at h
  · cases h
  next hne =>
    rw [Bool.not_eq_true] at hne
    rw [Cursor.isEmpty_extend hne, if_neg Bool.false_ne_true]
    split at h
    · cases h
    next tag afterTag hv =>
      rw [Cursor.varint?_extend hv more]
      simp only
      split at h
      · cases h
      next n wireType ht =>
        split at h
        · cases h
        next after hs =>
          cases h
          simp only [Cursor.offset_extend, skipValue_extend hs more]

theorem skipGroups_extend {origin : Nat} {number : UInt32} {depth : Nat} {c after : Cursor}
    (h : skipGroups origin number depth c = .ok after) (more : List UInt8) :
    skipGroups origin number depth (c.extend more) = .ok (after.extend more) := by
  fun_induction skipGroups origin number depth c with
  | case1 c =>
    cases h
    rw [skipGroups]
  | case2 => cases h
  | case3 => cases h
  | case4 => cases h
  | case5 => cases h
  | case6 c depth hne tag after' hv n wireType ht n' rest hr _ ih =>
    rw [skipGroups]
    rw [Bool.not_eq_true] at hne
    rw [Cursor.isEmpty_extend hne, if_neg Bool.false_ne_true, Cursor.varint?_extend hv more]
    simp only [ht]
    split
    next e he =>
      rw [local_skipRecord origin hr more] at he
      cases he
    next he =>
      rw [local_skipRecord origin hr more] at he
      cases he
      exact ih h

theorem skipUnknown_extend {number : UInt32} {wireType : WireType} {c after : Cursor}
    (h : skipUnknown number wireType c = .ok after) (more : List UInt8) :
    skipUnknown number wireType (c.extend more) = .ok (after.extend more) := by
  unfold skipUnknown at h ⊢
  split at h
  · cases h
  next n rest hr =>
    rw [Cursor.offset_extend, local_skipRecord c.offset hr more]
    cases wireType with
    | startGroup => exact skipGroups_extend h more
    | _ =>
      cases h
      rfl

end ProtoStub.Wire

namespace ProtoStub.Codec

open Wire

/-! ## Local readers of the codec -/

theorem local_readScalar (codec : Codec) (kind : FieldKind) (path : String) :
    Local (codec.readScalar kind path) := by
  cases kind with
  | double => exact Cursor.local_word64.map fun n => Value.double ⟨n⟩
  | float => exact Cursor.local_word32.map fun n => Value.float ⟨n⟩
  | int32 => exact Cursor.local_varint.map fun n => Value.int32 (Int32.ofInt n.toNat)
  | int64 => exact Cursor.local_varint.map fun n => Value.int64 (Int64.ofInt n.toNat)
  | uint32 => exact Cursor.local_varint.map fun n => Value.uint32 (UInt32.ofNat n.toNat)
  | uint64 => exact Cursor.local_varint.map Value.uint64
  | sint32 => exact Cursor.local_varint.map fun n => Value.int32 (unzigzag32 n)
  | sint64 => exact Cursor.local_varint.map fun n => Value.int64 (unzigzag64 n)
  | fixed32 => exact Cursor.local_word32.map Value.uint32
  | fixed64 => exact Cursor.local_word64.map Value.uint64
  | sfixed32 => exact Cursor.local_word32.map fun n => Value.int32 (Int32.ofInt n.toNat)
  | sfixed64 => exact Cursor.local_word64.map fun n => Value.int64 (Int64.ofInt n.toNat)
  | bool => exact Cursor.local_varint.map fun n => Value.bool (n ≠ 0)
  | bytes => exact Cursor.local_body.map fun body => Value.bytes body.bytes
  | string =>
    intro c rest v h more
    simp only [readScalar] at h ⊢
    split at h
    · cases h
    next body after hb =>
      rw [Cursor.local_body hb more]
      split at h
      · cases h
      next s hs =>
        cases h
        simp only [hs]
  | enum target =>
    intro c rest v h more
    simp only [readScalar] at h ⊢
    split at h
    · cases h
    next n after hv =>
      rw [Cursor.local_varint hv more]
      obtain ⟨e, he, hr⟩ := exists_of_map_eq_ok h
      cases hr
      simp only [he]
      rfl
  | message target => intro c rest v h; cases h
  | group => intro c rest v h; cases h

theorem local_readSlot (codec : Codec) (slot : Slot) (wireType : WireType) :
    Local (codec.readSlot slot wireType) := by
  intro c rest occurrence h more
  unfold readSlot at h ⊢
  split at h
  · split at h
    next hw =>
      obtain ⟨r, hb, hr⟩ := exists_of_map_eq_ok h
      cases hr
      rw [if_pos hw, Cursor.local_body hb more]
      rfl
    · cases h
  next kind repeated hform =>
    split at h
    next hp =>
      rw [if_pos hp]
      split at h
      · cases h
      next body after hb =>
        rw [Cursor.local_body hb more]
        obtain ⟨values, hv, hr⟩ := exists_of_map_eq_ok h
        cases hr
        simp only [hv]
        rfl
    next hp =>
      rw [if_neg hp]
      split at h
      next hw =>
        obtain ⟨r, hs, hr⟩ := exists_of_map_eq_ok h
        cases hr
        rw [if_pos hw, local_readScalar codec kind slot.path hs more]
        rfl
      · cases h

theorem local_readRecord (codec : Codec) (slots : Slots) : Local (codec.readRecord slots) := by
  intro c rest occurrence h more
  unfold readRecord at h ⊢
  split at h
  · cases h
  next tag after hv =>
    rw [Cursor.local_varint hv more]
    split at h
    · cases h
    next number wireType ht =>
      simp only [ht]
      split at h
      next hs =>
        obtain ⟨after', hu, hr⟩ := exists_of_map_eq_ok h
        cases hr
        simp only [skipUnknown_extend hu more]
        rfl
      next slot hs =>
        exact local_readSlot codec slot wireType h more

/-! ## Steps and runs -/

/-- The message after a record is entered into it. -/
def enter (codec : Codec) (m : Message) : Occurrence → Except Error Message
  | .unknown => .ok m
  | .scalars slot repeated values =>
    .ok (slot.store m (absorb repeated (m.get? slot.name) values))
  | .body slot nested body =>
    match codec.openNested slot.path nested (m.get? slot.name) with
    | .error e => .error e
    | .ok (inner, start) =>
      match codec.decodeInto inner body start with
      | .error e => .error e
      | .ok done => .ok (slot.store m (some (nested.close (m.get? slot.name) done)))

theorem exists_of_enter_body {codec : Codec} {slot : Slot} {nested : Nested} {content : Cursor}
    {m next : Message} (h : codec.enter m (.body slot nested content) = .ok next) :
    ∃ inner start done,
      codec.openNested slot.path nested (m.get? slot.name) = .ok (inner, start) ∧
      codec.decodeInto inner content start = .ok done ∧
      next = slot.store m (some (nested.close (m.get? slot.name) done)) := by
  simp only [enter] at h
  cases hopen : codec.openNested slot.path nested (m.get? slot.name) with
  | error e =>
    rw [hopen] at h
    cases h
  | ok opened =>
    obtain ⟨inner, start⟩ := opened
    rw [hopen] at h
    cases hdone : codec.decodeInto inner content start with
    | error e =>
      simp only [hdone] at h
      cases h
    | ok done =>
      simp only [hdone] at h
      cases h
      exact ⟨inner, start, done, rfl, hdone, rfl⟩

/-- Nothing is read where no bytes are left. -/
theorem decodeInto_nil (codec : Codec) (slots : Slots) {c : Cursor} (m : Message)
    (h : c.bytes = []) : codec.decodeInto slots c m = .ok m := by
  rw [decodeInto, h]
  rfl

/-- A run reads a record, enters it and goes on with the rest. -/
theorem decodeInto_eq (codec : Codec) (slots : Slots) {c : Cursor} (m : Message)
    (h : c.bytes ≠ []) :
    codec.decodeInto slots c m =
      match codec.readRecord slots c with
      | .error e => .error e
      | .ok (occurrence, rest) =>
        match codec.enter m occurrence with
        | .error e => .error e
        | .ok m' => codec.decodeInto slots rest m' := by
  have hne : ¬ c.bytes.isEmpty = true := by rwa [List.isEmpty_iff]
  rw [decodeInto, if_neg hne]
  split
  next he => rw [he]
  next hr => simp only [hr, enter]
  next hr => simp only [hr, enter]
  next slot nested body rest hr =>
    simp only [hr, enter]
    cases codec.openNested slot.path nested (m.get? slot.name) with
    | error e => rfl
    | ok opened =>
      obtain ⟨inner, start⟩ := opened
      simp only
      cases codec.decodeInto inner body start <;> rfl

/-- The first step of a run that succeeds on bytes that are not empty. -/
theorem exists_step_of_decodeInto {codec : Codec} {slots : Slots} {c : Cursor} {m m' : Message}
    (hne : c.bytes ≠ []) (h : codec.decodeInto slots c m = .ok m') :
    ∃ occurrence rest next, codec.readRecord slots c = .ok (occurrence, rest) ∧
      codec.enter m occurrence = .ok next ∧ codec.decodeInto slots rest next = .ok m' := by
  rw [decodeInto_eq codec slots m hne] at h
  cases hr : codec.readRecord slots c with
  | error e =>
    rw [hr] at h
    cases h
  | ok r =>
    obtain ⟨occurrence, rest⟩ := r
    rw [hr] at h
    cases he : codec.enter m occurrence with
    | error e =>
      simp only [he] at h
      cases h
    | ok next =>
      simp only [he] at h
      exact ⟨occurrence, rest, next, rfl, he, h⟩

/-- A run over bytes with more bytes behind them goes on with those from its result. -/
theorem decodeInto_extend {codec : Codec} {slots : Slots} {c : Cursor} {m m' : Message}
    (h : codec.decodeInto slots c m = .ok m') (more : List UInt8) :
    codec.decodeInto slots (c.extend more) m =
      codec.decodeInto slots ⟨c.offset + c.size, more⟩ m' := by
  -- The run gets shorter with every record, so the induction is on the bytes that are left.
  induction hn : c.size using Nat.strongRecOn generalizing c m with
  | _ n ih =>
    subst hn
    by_cases hb : c.bytes = []
    · rw [decodeInto_nil codec slots m hb] at h
      cases h
      simp only [Cursor.extend, Cursor.size, hb, List.nil_append, List.length_nil, Nat.add_zero]
    · obtain ⟨occurrence, rest, next, hr, he, hrest⟩ := exists_step_of_decodeInto hb h
      have hmore : (c.extend more).bytes ≠ [] := by simp [Cursor.extend, hb]
      obtain ⟨used, hpos, hle, rfl⟩ := (readRecord_moved hr).1
      have hsize : (c.advance used).size < c.size := by rw [Cursor.size_advance]; omega
      have hend : (c.advance used).offset + (c.advance used).size = c.offset + c.size := by
        rw [Cursor.size_advance]
        simp only [Cursor.advance]
        omega
      rw [decodeInto_eq codec slots m hmore, local_readRecord codec slots hr more]
      simp only [he]
      rw [ih _ hsize hrest rfl, hend]

/-- A type with one number. -/
def counter : MessageDecl :=
  { name := "Counter", fqName := "Counter", shortName := "Counter", isMapEntry := false
    fields := [.plain
      { name := "count", number := 1, repeated := false, optional := false, oneof := none
        kind := .int32, initial := .zero, operations := FieldKind.int32.operations false
        protoName := "count", jsonName := "count", customJsonName := none, comment := none }]
    comment := none }

end ProtoStub.Codec
