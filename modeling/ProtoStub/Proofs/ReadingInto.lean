import ProtoStub.Proofs.LastMember

/-!
# Reading into one message or another

The message that bytes are read into decides what they are added to, and hardly anything else. A
record is refused for what it holds, and a nested body either finds a message in its property or
starts from a new one; the only thing that can go wrong there is that a new one cannot be made.
So bytes that can be read into a message can be read into every message that holds at least the
same messages (`CoveredBy`), and where they cannot, it is for the same fault (`follows_decodeInto`).
A new message holds no messages, and is covered by all.
-/

namespace ProtoStub.Codec

open Wire

variable {codec : Codec}

/-! ## Messages that hold more -/

/-- Wherever the first message holds a message, so does the second, and so inside these. -/
inductive CoveredBy : Message → Message → Prop
  | intro {m m' : Message}
      (held : ∀ name x, m.get? name = some (.message x) → ∃ x', m'.get? name = some (.message x'))
      (inside : ∀ name x x', m.get? name = some (.message x) →
        m'.get? name = some (.message x') → CoveredBy x x') : CoveredBy m m'

/-- Where the first of two properties holds a message, so does the second, and covers it. -/
def PropertyCovered (v v' : Option Value) : Prop :=
  ∀ x, v = some (.message x) → ∃ x', v' = some (.message x') ∧ CoveredBy x x'

theorem propertyCovered_of_ne {v : Option Value} (h : ∀ x, v ≠ some (.message x))
    (v' : Option Value) : PropertyCovered v v' :=
  fun x hx => absurd hx (h x)

namespace CoveredBy

theorem property {m m' : Message} (h : CoveredBy m m') (name : String) :
    PropertyCovered (m.get? name) (m'.get? name) := by
  intro x hx
  cases h with
  | intro held inside =>
    obtain ⟨x', hx'⟩ := held name x hx
    exact ⟨x', hx', inside name x x' hx hx'⟩

theorem of_properties {m m' : Message}
    (h : ∀ name, PropertyCovered (m.get? name) (m'.get? name)) : CoveredBy m m' := by
  constructor
  · intro name x hx
    obtain ⟨x', hx', -⟩ := h name x hx
    exact ⟨x', hx'⟩
  · intro name x x' hx hx'
    obtain ⟨y, hy, hcovered⟩ := h name x hx
    obtain rfl : x' = y := by simpa [hx'] using hy
    exact hcovered

theorem refl (m : Message) : CoveredBy m m :=
  of_properties fun name x hx => ⟨x, hx, refl x⟩
termination_by sizeOf m
decreasing_by
  have hmem := List.sizeOf_lt_of_mem (KeyMap.mem_of_find? hx)
  obtain ⟨typeName, fields⟩ := m
  simp only [Message.mk.sizeOf_spec, Prod.mk.sizeOf_spec, Value.message.sizeOf_spec] at hmem ⊢
  omega

end CoveredBy

theorem PropertyCovered.refl (v : Option Value) : PropertyCovered v v :=
  fun x hx => ⟨x, hx, .refl x⟩

theorem ne_message_of_defaultValue {info : FieldInfo} {v : Value}
    (h : codec.defaultValue info = .ok (some v)) (x : Message) : v ≠ .message x := by
  rintro rfl
  have hdefault : codec.defaultOf (.plain info) = some (.message x) := defaultOf_eq h
  have hnone := messages_of_defaultOf hdefault
  cases hnone

/-- Defaults are no messages. -/
theorem ne_message_of_setDefaults {fields : List Field} {m m' : Message}
    (h : codec.setDefaults fields m = .ok m')
    (hm : ∀ name x, m.get? name ≠ some (.message x)) (name : String) (x : Message) :
    m'.get? name ≠ some (.message x) := by
  induction fields generalizing m with
  | nil =>
    cases h
    exact hm name x
  | cons field rest ih =>
    rw [setDefaults] at h
    cases hvalue : codec.defaultValue field.info with
    | error e =>
      simp only [hvalue] at h
      cases h
    | ok value =>
      simp only [hvalue] at h
      refine ih h fun name x hx => ?_
      cases value with
      | none => exact hm name x hx
      | some v =>
        rw [Message.update, Message.get?_set] at hx
        split at hx
        · exact ne_message_of_defaultValue hvalue x (Option.some.inj hx)
        · exact hm name x hx

/-- A new message is covered by every message. -/
theorem coveredBy_of_newMessage {decl : MessageDecl} {m : Message}
    (h : codec.newMessage decl = .ok m) (m' : Message) : CoveredBy m m' := by
  refine .of_properties fun name => propertyCovered_of_ne (fun x => ?_) _
  refine ne_message_of_setDefaults h (fun name x hx => ?_) name x
  cases hx

/-! ## One record -/

theorem CoveredBy.store {m m' : Message} (h : CoveredBy m m') (slot : Slot)
    {value value' : Option Value}
    (hvalue : PropertyCovered (value.or (m.get? slot.name)) (value'.or (m'.get? slot.name))) :
    CoveredBy (slot.store m value) (slot.store m' value') := by
  refine .of_properties fun name => ?_
  rw [Slot.get?_store_eq, Slot.get?_store_eq]
  split
  · exact propertyCovered_of_ne (fun x hx => by cases hx) none
  · split
    next heq =>
      rw [← heq]
      exact hvalue
    · exact h.property name

theorem PropertyCovered.absorb {old old' : Option Value} (h : PropertyCovered old old')
    (repeated : Bool) (values : List Value) :
    PropertyCovered ((Codec.absorb repeated old values).or old)
      ((Codec.absorb repeated old' values).or old') := by
  cases values with
  | nil => cases repeated <;> simpa [Codec.absorb, Value.pushItems] using h
  | cons v rest =>
    cases repeated with
    | false =>
      have hlast := List.getLast?_eq_some_getLast (List.cons_ne_nil v rest)
      simpa [Codec.absorb, hlast] using PropertyCovered.refl (some _)
    | true =>
      have hlist : ∃ items, Codec.absorb true old (v :: rest) = some (.list items) := by
        rw [Codec.absorb, if_pos rfl]
        unfold Value.pushItems
        split
        next hnil => cases hnil
        · exact ⟨_, rfl⟩
        · exact ⟨_, rfl⟩
      obtain ⟨items, hitems⟩ := hlist
      refine propertyCovered_of_ne (fun x hx => ?_) _
      rw [hitems] at hx
      cases hx

theorem PropertyCovered.close {old old' : Option Value} (h : PropertyCovered old old')
    (nested : Nested) {m m' : Message} (hm : CoveredBy m m') :
    PropertyCovered (some (nested.close old m)) (some (nested.close old' m')) := by
  intro x hx
  cases nested with
  | message target repeated =>
    cases repeated with
    | false =>
      cases hx
      exact ⟨m', rfl, hm⟩
    | true =>
      simp only [Nested.close, Value.pushItem] at hx
      split at hx <;> cases hx
  | entry key value =>
    simp only [Nested.close] at hx ⊢
    unfold Value.putEntry at hx
    split at hx
    · cases hx
    · cases hx
    next other _ =>
      -- what is no map stays, and so it does in the other message
      obtain ⟨x', hx', hcovered⟩ := h x hx
      exact ⟨x', by rw [hx']; rfl, hcovered⟩

theorem exists_openNested_of_covered {path : String} {nested : Nested} {old old' : Option Value}
    {inner : Slots} {start : Message} (hopen : codec.openNested path nested old = .ok (inner, start))
    (hold : PropertyCovered old old') :
    ∃ start', codec.openNested path nested old' = .ok (inner, start') ∧ CoveredBy start start' := by
  cases nested with
  | entry key value => exact ⟨start, hopen, .refl start⟩
  | message target repeated =>
    simp only [openNested] at hopen ⊢
    cases hdecl : codec.message target.fqName with
    | error e =>
      rw [hdecl] at hopen
      cases hopen
    | ok decl =>
      simp only [hdecl] at hopen ⊢
      split at hopen
      next x =>
        obtain ⟨x', rfl, hcovered⟩ := hold _ rfl
        cases hopen
        exact ⟨x', rfl, hcovered⟩
      · obtain ⟨m, hm, hr⟩ := exists_of_map_eq_ok hopen
        cases hr
        split
        next x' _ => exact ⟨x', rfl, coveredBy_of_newMessage hm x'⟩
        · exact ⟨start, by rw [hm]; rfl, .refl start⟩

/-- The result of a run into a message, and of one into a message that covers it. What fails
because a new message cannot be made need not fail in the second. -/
inductive Follows : Except Error Message → Except Error Message → Prop
  | done {m m' : Message} (covered : CoveredBy m m') : Follows (.ok m) (.ok m')
  | fault (e : Error) : Follows (.error e) (.error e)
  | unplaced {e : Error} (offset : e.offset? = none) (result : Except Error Message) :
      Follows (.error e) result

theorem follows_enter {m m' : Message} (h : CoveredBy m m') (occurrence : Occurrence)
    (hbody : ∀ slot nested content, occurrence = .body slot nested content →
      ∀ slots start start', CoveredBy start start' →
        Follows (codec.decodeInto slots content start) (codec.decodeInto slots content start')) :
    Follows (codec.enter m occurrence) (codec.enter m' occurrence) := by
  cases occurrence with
  | unknown => exact .done h
  | scalars slot repeated values =>
    exact .done (h.store slot ((h.property slot.name).absorb repeated values))
  | body slot nested content =>
    have hold := h.property slot.name
    simp only [enter]
    cases hopen : codec.openNested slot.path nested (m.get? slot.name) with
    | error e => exact .unplaced (codec.unplaced_openNested _ _ _ e hopen) _
    | ok opened =>
      obtain ⟨inner, start⟩ := opened
      obtain ⟨start', hopen', hstart⟩ := exists_openNested_of_covered hopen hold
      have hrun := hbody slot nested content rfl inner start start' hstart
      simp only [hopen']
      generalize codec.decodeInto inner content start = result,
        codec.decodeInto inner content start' = result' at hrun
      cases hrun with
      | done covered => exact .done (h.store slot (hold.close nested covered))
      | fault e => exact .fault e
      | unplaced offset => exact .unplaced offset _

/-! ## Runs -/

theorem follows_decodeInto (codec : Codec) (slots : Slots) (c : Cursor) {m m' : Message}
    (h : CoveredBy m m') :
    Follows (codec.decodeInto slots c m) (codec.decodeInto slots c m') := by
  -- Bodies and rests are shorter, so the induction is on the bytes that are left.
  induction hn : c.size using Nat.strongRecOn generalizing slots c m m' with
  | _ n ih =>
    subst hn
    by_cases hb : c.bytes = []
    · rw [decodeInto_nil codec slots m hb, decodeInto_nil codec slots m' hb]
      exact .done h
    · rw [decodeInto_eq codec slots m hb, decodeInto_eq codec slots m' hb]
      cases hr : codec.readRecord slots c with
      | error e => exact .fault e
      | ok r =>
        obtain ⟨occurrence, rest⟩ := r
        obtain ⟨hmoved, hshorter⟩ := readRecord_moved hr
        have henter : Follows (codec.enter m occurrence) (codec.enter m' occurrence) := by
          refine follows_enter h occurrence ?_
          rintro slot nested content rfl slots start start' hstart
          exact ih content.size hshorter slots content hstart rfl
        simp only
        generalize codec.enter m occurrence = result, codec.enter m' occurrence = result' at henter
        cases henter with
        | done covered => exact ih rest.size hmoved.size_lt slots rest covered rfl
        | fault e => exact .fault e
        | unplaced offset => exact .unplaced offset _

theorem exists_of_decodeInto_covered {slots : Slots} {c : Cursor} {m m' done : Message}
    (h : codec.decodeInto slots c m = .ok done) (hcovered : CoveredBy m m') :
    ∃ done', codec.decodeInto slots c m' = .ok done' ∧ CoveredBy done done' := by
  have hfollows := follows_decodeInto codec slots c hcovered
  rw [h] at hfollows
  generalize hresult : codec.decodeInto slots c m' = result at hfollows
  cases hfollows with
  | done covered => exact ⟨_, rfl, covered⟩

theorem decodeInto_eq_error_of_covered {slots : Slots} {c : Cursor} {m m' : Message} {e : Error}
    (h : codec.decodeInto slots c m = .error e) (hoffset : e.offset?.isSome = true)
    (hcovered : CoveredBy m m') : codec.decodeInto slots c m' = .error e := by
  have hfollows := follows_decodeInto codec slots c hcovered
  rw [h] at hfollows
  generalize codec.decodeInto slots c m' = result at hfollows
  cases hfollows with
  | fault => rfl
  | unplaced offset =>
    rw [offset] at hoffset
    cases hoffset

/-! ## Behind a message -/

/-- Behind bytes that are a message, reading goes on from the message that they are. -/
theorem decode_append {typeName : String} {decl : MessageDecl}
    (htype : codec.message typeName = .ok decl) {a : List UInt8} {m : Message}
    (ha : codec.decode typeName a = .ok m) (b : List UInt8) :
    codec.decode typeName (a ++ b) = codec.decodeInto (slotsOf decl) ⟨a.length, b⟩ m := by
  simp only [decode, htype] at ha ⊢
  cases hnew : codec.newMessage decl with
  | error e => simp only [hnew, reduceCtorEq] at ha
  | ok start =>
    simp only [hnew] at ha ⊢
    have happend := decodeInto_extend ha b
    simpa only [Cursor.start, Cursor.extend, Cursor.size, Nat.zero_add] using happend

end ProtoStub.Codec
