import ProtoStub.Proofs.ReadingInto
import ProtoStub.Proofs.SchemaEvolution

/-!
# The order of records of different fields

A record looks at the property of its own field, gives it a new value and unsets the other members
of the field's oneof (`enter_eq_change`). Two fields that are not members of one oneof are `Apart`:
neither record touches what the other one looks at, so the two can change places (`enter_comm`), and
a message keeps its properties in order, so the results are not only alike but the same. Bytes that
are one record each can therefore change places in a message, as long as the bytes before them end
where a record ends (`decode_swap`).
-/

namespace ProtoStub.Codec

open Wire

variable {codec : Codec}

/-! ## What a record does to its property -/

/-- What a record makes of the value of its property. -/
def change (codec : Codec) (occurrence : Occurrence) (old : Option Value) :
    Except Error (Option Value) :=
  match occurrence with
  | .unknown => .ok none
  | .scalars _ repeated values => .ok (absorb repeated old values)
  | .body slot nested content =>
    match codec.openNested slot.path nested old with
    | .error e => .error e
    | .ok (inner, start) =>
      match codec.decodeInto inner content start with
      | .error e => .error e
      | .ok done => .ok (some (nested.close old done))

theorem enter_eq_change {occurrence : Occurrence} {slot : Slot}
    (h : occurrence.slot? = some slot) (m : Message) :
    codec.enter m occurrence =
      (fun value => slot.store m value) <$> codec.change occurrence (m.get? slot.name) := by
  cases occurrence with
  | unknown => cases h
  | scalars s repeated values =>
    cases h
    rfl
  | body s nested content =>
    cases h
    simp only [enter, change]
    cases codec.openNested slot.path nested (m.get? slot.name) with
    | error e => rfl
    | ok opened =>
      simp only
      cases codec.decodeInto opened.1 content opened.2 <;> rfl

theorem enter_of_slot?_eq_none {occurrence : Occurrence} (h : occurrence.slot? = none)
    (m : Message) : codec.enter m occurrence = .ok m := by
  cases occurrence with
  | unknown => rfl
  | scalars slot repeated values => cases h
  | body slot nested content => cases h

theorem exists_change_of_enter {occurrence : Occurrence} {slot : Slot}
    (hslot : occurrence.slot? = some slot) {m next : Message}
    (h : codec.enter m occurrence = .ok next) :
    ∃ value, codec.change occurrence (m.get? slot.name) = .ok value ∧
      next = slot.store m value := by
  rw [enter_eq_change hslot] at h
  obtain ⟨value, hvalue, hnext⟩ := exists_of_map_eq_ok h
  exact ⟨value, hvalue, hnext.symm⟩

theorem sorted_enter {m next : Message} (hm : m.Sorted) {occurrence : Occurrence}
    (h : codec.enter m occurrence = .ok next) : next.Sorted := by
  cases hslot : occurrence.slot? with
  | none =>
    rw [enter_of_slot?_eq_none hslot] at h
    cases h
    exact hm
  | some slot =>
    obtain ⟨value, -, rfl⟩ := exists_change_of_enter hslot h
    exact slot.sorted_store hm value

theorem sorted_decodeInto {m m' : Message} (hm : m.Sorted) {slots : Slots} {c : Cursor}
    (h : codec.decodeInto slots c m = .ok m') : m'.Sorted :=
  inv_of_decodeInto (fun _ _ hm henter => sorted_enter hm henter) hm h

theorem sorted_of_decode {typeName : String} {decl : MessageDecl}
    (htype : codec.message typeName = .ok decl) (hnames : decl.DistinctProperties)
    {bytes : List UInt8} {m : Message} (h : codec.decode typeName bytes = .ok m) : m.Sorted := by
  simp only [decode, htype] at h
  cases hnew : codec.newMessage decl with
  | error e =>
    simp only [hnew] at h
    cases h
  | ok start =>
    simp only [hnew] at h
    refine sorted_decodeInto ?_ h
    rw [eq_fresh_of_newMessage hnames hnew]
    exact sorted_fresh codec decl

/-! ## Slots that do not touch each other -/

/-- Neither of two slots changes the property of the other. -/
structure Slot.Apart (s t : Slot) : Prop where
  names : s.name ≠ t.name
  left : s.name ∉ t.rivals
  right : t.name ∉ s.rivals

theorem Slot.Apart.symm {s t : Slot} (h : s.Apart t) : t.Apart s :=
  ⟨h.names.symm, h.right, h.left⟩

theorem Slot.Apart.get?_store {s t : Slot} (h : s.Apart t) (m : Message) (value : Option Value) :
    (s.store m value).get? t.name = m.get? t.name := by
  rw [Slot.get?_store_eq, if_neg h.right, if_neg h.names]

theorem Slot.Apart.store_comm {s t : Slot} (h : s.Apart t) {m : Message} (hm : m.Sorted)
    (value value' : Option Value) :
    t.store (s.store m value) value' = s.store (t.store m value') value := by
  refine Message.ext_get? (t.sorted_store (s.sorted_store hm _) _)
    (s.sorted_store (t.sorted_store hm _) _) ?_ fun name => ?_
  · simp only [Slot.typeName_store]
  · simp only [Slot.get?_store_eq]
    by_cases hs : s.name = name
    · subst hs
      simp only [if_neg h.left, if_neg h.names.symm]
    · by_cases ht : t.name = name
      · subst ht
        simp only [if_neg h.right, if_neg h.names]
      · -- the property of neither slot, which one or both may unset
        simp only [if_neg hs, if_neg ht]
        split <;> split <;> rfl

/-- Fields that are not members of one oneof are apart. -/
theorem apart_slotOf {decl : MessageDecl} (hnames : decl.DistinctProperties) {f g : Field}
    (hf : f ∈ decl.fields) (hg : g ∈ decl.fields) (hne : f ≠ g)
    (honeof : f.info.oneof.isSome = true → f.info.oneof ≠ g.info.oneof) :
    (slotOf decl f).Apart (slotOf decl g) := by
  refine ⟨fun heq => hne (List.inj_on_of_nodup_map hnames hf hg heq), ?_, ?_⟩
  · intro hmem
    obtain ⟨hmember, hsame, -⟩ := (mem_rivals hnames hf).1 hmem
    exact honeof (hsame ▸ hmember) hsame
  · intro hmem
    obtain ⟨hmember, hsame, -⟩ := (mem_rivals hnames hg).1 hmem
    exact honeof hmember hsame.symm

/-- Two records whose slots are apart can change places. -/
theorem enter_comm {x y : Occurrence}
    (hapart : ∀ s t, x.slot? = some s → y.slot? = some t → s.Apart t) {m m₁ m₂ : Message}
    (hm : m.Sorted) (hx : codec.enter m x = .ok m₁) (hy : codec.enter m₁ y = .ok m₂) :
    ∃ m', codec.enter m y = .ok m' ∧ codec.enter m' x = .ok m₂ := by
  cases hs : x.slot? with
  | none =>
    rw [enter_of_slot?_eq_none hs] at hx
    cases hx
    exact ⟨m₂, hy, enter_of_slot?_eq_none hs m₂⟩
  | some s =>
    cases ht : y.slot? with
    | none =>
      rw [enter_of_slot?_eq_none ht] at hy
      cases hy
      exact ⟨m, enter_of_slot?_eq_none ht m, hx⟩
    | some t =>
      have h := hapart s t hs ht
      obtain ⟨value, hvalue, rfl⟩ := exists_change_of_enter hs hx
      obtain ⟨value', hvalue', rfl⟩ := exists_change_of_enter ht hy
      rw [h.get?_store] at hvalue'
      refine ⟨t.store m value', ?_, ?_⟩
      · rw [enter_eq_change ht, hvalue']
        rfl
      · rw [enter_eq_change hs, h.symm.get?_store, hvalue, h.store_comm hm]
        rfl

/-! ## Bytes that are one record

Whether a record is complete does not depend on the schema: if it can be passed over, then a reader
that accepts it with more bytes behind it has not looked at these. -/

theorem varint_of_skipValue {position : Nat} {c rest : Cursor}
    (h : skipValue .varint position c = .ok rest) : ∃ v, c.varint = .ok (v, rest) := by
  rw [skipValue] at h
  cases hv : c.varint? with
  | none =>
    rw [hv] at h
    cases h
  | some r =>
    rw [hv] at h
    cases h
    exact ⟨r.1, by rw [Cursor.varint, hv]⟩

theorem word_of_size {c : Cursor} {count : Nat} (h : ¬ c.size < count) (what : String) :
    ∃ n, c.word count what = .ok (n, c.advance count) :=
  ⟨_, by rw [Cursor.word, if_neg h]⟩

theorem word64_of_skipValue {position : Nat} {c rest : Cursor}
    (h : skipValue .i64 position c = .ok rest) : ∃ v, c.word64 = .ok (v, rest) := by
  rw [skipValue] at h
  split at h
  · cases h
  next hsize =>
    cases h
    obtain ⟨n, hn⟩ := word_of_size hsize "I64"
    exact ⟨UInt64.ofNat n, by rw [Cursor.word64, hn]; rfl⟩

theorem word32_of_skipValue {position : Nat} {c rest : Cursor}
    (h : skipValue .i32 position c = .ok rest) : ∃ v, c.word32 = .ok (v, rest) := by
  rw [skipValue] at h
  split at h
  · cases h
  next hsize =>
    cases h
    obtain ⟨n, hn⟩ := word_of_size hsize "I32"
    exact ⟨UInt32.ofNat n, by rw [Cursor.word32, hn]; rfl⟩

theorem body_of_skipValue {position : Nat} {c rest : Cursor}
    (h : skipValue .len position c = .ok rest) : ∃ content, c.body = .ok (content, rest) := by
  rw [skipValue] at h
  cases hv : c.varint? with
  | none =>
    rw [hv] at h
    cases h
  | some r =>
    obtain ⟨length, after⟩ := r
    simp only [hv] at h
    split at h
    · cases h
    next hlength =>
      cases h
      exact ⟨after.window length.toNat, by simp only [Cursor.body, hv]; rw [if_pos (by omega)]⟩

theorem readScalar_of_extend {kind : FieldKind} {path : String} {c rest : Cursor} {position : Nat}
    (hskip : skipValue kind.wireType position c = .ok rest) {more : List UInt8}
    {r : Value × Cursor} (h : codec.readScalar kind path (c.extend more) = .ok r) :
    ∃ v, codec.readScalar kind path c = .ok (v, rest) := by
  cases kind with
  | double | fixed64 | sfixed64 =>
    obtain ⟨n, hn⟩ := word64_of_skipValue hskip
    exact ⟨_, by rw [readScalar, hn]; rfl⟩
  | float | fixed32 | sfixed32 =>
    obtain ⟨n, hn⟩ := word32_of_skipValue hskip
    exact ⟨_, by rw [readScalar, hn]; rfl⟩
  | int32 | int64 | uint32 | uint64 | sint32 | sint64 | bool =>
    obtain ⟨n, hn⟩ := varint_of_skipValue hskip
    exact ⟨_, by rw [readScalar, hn]; rfl⟩
  | enum target =>
    obtain ⟨n, hn⟩ := varint_of_skipValue hskip
    simp only [readScalar, Cursor.local_varint hn more] at h
    obtain ⟨e, he, -⟩ := exists_of_map_eq_ok h
    exact ⟨.enum e, by simp only [readScalar, hn, he]; rfl⟩
  | bytes =>
    obtain ⟨content, hn⟩ := body_of_skipValue hskip
    exact ⟨_, by rw [readScalar, hn]; rfl⟩
  | string =>
    obtain ⟨content, hn⟩ := body_of_skipValue hskip
    simp only [readScalar, Cursor.local_body hn more] at h
    cases hs : Text.utf8Decode content.bytes with
    | error fault =>
      simp only [hs] at h
      cases h
    | ok s => exact ⟨.string s, by simp only [readScalar, hn, hs]⟩
  | message target | group => cases h

theorem readSlot_of_extend {slot : Slot} {wireType : WireType} {c rest : Cursor} {position : Nat}
    (hskip : skipValue wireType position c = .ok rest) {more : List UInt8}
    {r : Occurrence × Cursor} (h : codec.readSlot slot wireType (c.extend more) = .ok r) :
    ∃ occurrence, codec.readSlot slot wireType c = .ok (occurrence, rest) := by
  unfold readSlot at h ⊢
  split at h
  next nested hform =>
    split at h
    next hlen =>
      subst hlen
      obtain ⟨content, hbody⟩ := body_of_skipValue hskip
      exact ⟨.body slot nested content, by rw [if_pos rfl, hbody]; rfl⟩
    · cases h
  next kind repeated hform =>
    split at h
    next hpacked =>
      obtain rfl : wireType = .len := by simpa using (Bool.and_eq_true_iff.1 hpacked).2
      obtain ⟨content, hbody⟩ := body_of_skipValue hskip
      simp only [Cursor.local_body hbody more] at h
      obtain ⟨values, hvalues, -⟩ := exists_of_map_eq_ok h
      refine ⟨.scalars slot repeated values, ?_⟩
      rw [if_pos hpacked]
      simp only [hbody, hvalues]
      rfl
    next hpacked =>
      split at h
      next hwire =>
        subst hwire
        obtain ⟨r', hread, -⟩ := exists_of_map_eq_ok h
        obtain ⟨v, hv⟩ := readScalar_of_extend hskip hread
        exact ⟨.scalars slot repeated [v], by rw [if_neg hpacked, if_pos rfl, hv]; rfl⟩
      · cases h

theorem skipValue_of_skipUnknown {c after rest : Cursor} {tag : UInt64} {number : UInt32}
    {wireType : WireType} (htag : c.varint = .ok (tag, after))
    (hsplit : splitTag tag = .ok (number, wireType))
    (h : skipUnknown number wireType c = .ok rest) (hgroup : wireType ≠ .startGroup) :
    ∃ position, skipValue wireType position after = .ok rest := by
  have hne : ¬ c.bytes.isEmpty = true := by
    rw [List.isEmpty_iff]
    exact bytes_ne_nil_of_varint htag
  simp only [skipUnknown, skipRecord, if_neg hne, varint?_of_varint htag, hsplit] at h
  refine ⟨c.offset + (after.offset - c.offset), ?_⟩
  cases hvalue : skipValue wireType (c.offset + (after.offset - c.offset)) after with
  | error e =>
    simp only [hvalue] at h
    cases h
  | ok rest' =>
    simp only [hvalue] at h
    exact h

theorem readRecord_of_extend {slots : Slots} {c rest : Cursor} {number : UInt32}
    (hnext : nextRecord c = .ok (number, rest)) {more : List UInt8} {r : Occurrence × Cursor}
    (h : codec.readRecord slots (c.extend more) = .ok r) :
    ∃ occurrence, codec.readRecord slots c = .ok (occurrence, rest) ∧
      slots number = occurrence.slot? := by
  suffices hread : ∃ occurrence, codec.readRecord slots c = .ok (occurrence, rest) by
    obtain ⟨occurrence, hread⟩ := hread
    obtain ⟨number', hnext', hslot⟩ := nextRecord_of_readRecord hread
    cases hnext.symm.trans hnext'
    exact ⟨occurrence, hread, hslot⟩
  unfold nextRecord at hnext
  split at hnext
  · cases hnext
  next tag after htag =>
    split at hnext
    · cases hnext
    next n wireType hsplit =>
      obtain ⟨rest', hskip, hr⟩ := exists_of_map_eq_ok hnext
      cases hr
      simp only [readRecord, Cursor.local_varint htag more, hsplit] at h
      simp only [readRecord, htag, hsplit]
      cases hslot : slots number with
      | none => exact ⟨.unknown, by simp only [hskip]; rfl⟩
      | some slot =>
        simp only [hslot] at h
        obtain ⟨-, hgroup, -⟩ := skipValue_of_readSlot h
        obtain ⟨position, hvalue⟩ := skipValue_of_skipUnknown htag hsplit hskip hgroup
        exact readSlot_of_extend hvalue h

/-- The bytes are one record with a field number, complete and with nothing behind it. -/
def IsRecord (bytes : List UInt8) (number : UInt32) : Prop :=
  nextRecord (Cursor.start bytes) = .ok (number, ⟨bytes.length, []⟩)

instance (bytes : List UInt8) (number : UInt32) : Decidable (IsRecord bytes number) :=
  inferInstanceAs (Decidable (_ = _))

theorem IsRecord.ne_nil {bytes : List UInt8} {number : UInt32} (h : IsRecord bytes number) :
    bytes ≠ [] := by
  rintro rfl
  exact absurd (nextRecord_moved h).size_lt (Nat.lt_irrefl _)

/-- The step of a run that reads a complete record. -/
theorem IsRecord.exists_step {bytes : List UInt8} {number : UInt32} (h : IsRecord bytes number)
    {slots : Slots} {rest : List UInt8} {m m' : Message}
    (hrun : Leads codec slots (bytes ++ rest) m m') :
    ∃ occurrence next,
      codec.readRecord slots (Cursor.start bytes) = .ok (occurrence, ⟨bytes.length, []⟩) ∧
        slots number = occurrence.slot? ∧ codec.enter m occurrence = .ok next ∧
          Leads codec slots rest next m' := by
  have hne : ((Cursor.start bytes).extend rest).bytes ≠ [] := by
    simp [Cursor.extend, Cursor.start, h.ne_nil]
  obtain ⟨occurrence, after, next, hread, henter, hafter⟩ :=
    exists_step_of_decodeInto hne (hrun 0)
  obtain ⟨occurrence', hread', hslot⟩ := readRecord_of_extend h hread
  rw [local_readRecord codec slots hread' rest] at hread
  cases hread
  exact ⟨occurrence, next, hread', hslot, henter, (leads_iff _).2 hafter⟩

theorem leads_of_readRecord {slots : Slots} {bytes : List UInt8} {occurrence : Occurrence}
    (hread : codec.readRecord slots (Cursor.start bytes) = .ok (occurrence, ⟨bytes.length, []⟩))
    {m next : Message} (henter : codec.enter m occurrence = .ok next) :
    Leads codec slots bytes m next := by
  have hne : bytes ≠ [] := by
    rintro rfl
    exact absurd (readRecord_moved hread).1.size_lt (Nat.lt_irrefl _)
  rw [leads_iff 0, decodeInto_eq codec slots m hne]
  simp only [Cursor.start] at hread
  simp only [hread, henter]
  exact decodeInto_nil codec slots next rfl

/-- Two complete records of fields that are not members of one oneof can change places. -/
theorem leads_swap {decl : MessageDecl} (hnames : decl.DistinctProperties) {x y : List UInt8}
    {number number' : UInt32}
    (hx : IsRecord x number) (hy : IsRecord y number') (hne : number ≠ number')
    (honeof : ∀ f ∈ decl.fields, ∀ g ∈ decl.fields, f.info.number = number →
      g.info.number = number' → f.info.oneof.isSome = true → f.info.oneof ≠ g.info.oneof)
    {m m' : Message} (hm : m.Sorted) (h : Leads codec (slotsOf decl) (x ++ y) m m') :
    Leads codec (slotsOf decl) (y ++ x) m m' := by
  obtain ⟨first, next, hfirst, hslot, henter, hrest⟩ := hx.exists_step h
  rw [← List.append_nil y] at hrest
  obtain ⟨second, final, hsecond, hslot', henter', hend⟩ := hy.exists_step hrest
  obtain rfl : final = m' := by
    have hend := hend 0
    rw [decodeInto_nil codec _ final rfl] at hend
    exact Except.ok.inj hend
  have hapart : ∀ s t, first.slot? = some s → second.slot? = some t → s.Apart t := by
    intro s t hs ht
    obtain ⟨f, hf, hfn, rfl⟩ := exists_numbered_of_slotsOf (hslot.trans hs)
    obtain ⟨g, hg, hgn, rfl⟩ := exists_numbered_of_slotsOf (hslot'.trans ht)
    refine apart_slotOf hnames hf hg ?_ (honeof f hf g hg hfn hgn)
    rintro rfl
    exact hne (hfn.symm.trans hgn)
  obtain ⟨between, hbetween, hfinal⟩ := enter_comm hapart hm henter henter'
  exact (leads_of_readRecord hsecond hbetween).append (leads_of_readRecord hfirst hfinal)

end ProtoStub.Codec
