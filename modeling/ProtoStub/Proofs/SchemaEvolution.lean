import ProtoStub.Proofs.Reencoding
import ProtoStub.Proofs.Restriction
import ProtoStub.Proofs.WrittenRecords

/-!
# Messages of a newer schema

A message that is written with all fields of a schema is read by one with fewer fields as the
message without the properties that are missing there, at every depth.

The bytes that the full schema writes of a message are compared with those that the smaller one
writes of the restricted message. They are not the same, but they can be read in place of them
(`ReadsLike`): a dropped field leaves records that are passed over, and every other field leaves
the records of the smaller schema, in which the bodies of messages may again differ in this way.
So the round trip of the smaller schema carries over to the bytes of the full one.
-/

namespace ProtoStub.Codec

open Wire

/-! ## Reading in place of other bytes -/

section

variable {codec : Codec} {slots : Slots} {slot : Slot} {number : UInt32} {m m' : Message}

theorem leads_iff (offset : Nat) {bytes : List UInt8} :
    Leads codec slots bytes m m' ↔ codec.decodeInto slots ⟨offset, bytes⟩ m = .ok m' :=
  ⟨fun h => h offset, fun h _ => decodeInto_unplaced h rfl⟩

theorem leads_takes_iff {record rest : List UInt8} {occurrence : Occurrence}
    (h : Takes (codec.readRecord slots) record occurrence) :
    Leads codec slots (record ++ rest) m m' ↔
      ∃ next, codec.enter m occurrence = .ok next ∧ Leads codec slots rest next m' := by
  have hne : record ++ rest ≠ [] := by
    intro hnil
    have hmoved := (readRecord_moved (h 0 rest)).1.size_lt
    simp [Cursor.size, hnil] at hmoved
  constructor
  · intro hleads
    obtain ⟨occurrence', after, next, hread, henter, hafter⟩ :=
      exists_step_of_decodeInto (c := ⟨0, record ++ rest⟩) hne (hleads 0)
    rw [h 0 rest] at hread
    cases hread
    exact ⟨next, henter, (leads_iff _).2 hafter⟩
  · rintro ⟨next, henter, hrest⟩
    rw [leads_iff 0, decodeInto_eq codec slots m hne, h 0 rest]
    simp only [henter]
    exact hrest _

theorem leads_bodyRecord_iff (hslot : slots number = some slot) (hnumber : IsFieldNumber number)
    {nested : Nested} (hform : slot.form = .nested nested) {body rest : List UInt8}
    (hshort : body.length < UInt64.size) :
    Leads codec slots (bodyRecord number body ++ rest) m m' ↔
      ∃ inner start done,
        codec.openNested slot.path nested (m.get? slot.name) = .ok (inner, start) ∧
        Leads codec inner body start done ∧
        Leads codec slots rest (slot.store m (some (nested.close (m.get? slot.name) done))) m' := by
  constructor
  · intro h
    have hne : bodyRecord number body ++ rest ≠ [] := by
      simp [bodyRecord, encodeTag, (isVarint_encodeVarint _).ne_nil]
    obtain ⟨occurrence, after, next, hread, henter, hafter⟩ :=
      exists_step_of_decodeInto (c := ⟨0, bodyRecord number body ++ rest⟩) hne (h 0)
    rw [readRecord_body codec hslot hnumber hform hshort] at hread
    cases hread
    obtain ⟨inner, start, done, hopen, hdone, rfl⟩ := exists_of_enter_body henter
    exact ⟨inner, start, done, hopen, (leads_iff _).2 hdone, (leads_iff _).2 hafter⟩
  · rintro ⟨inner, start, done, hopen, hdone, hrest⟩
    exact (leads_body hslot hnumber hform hopen hshort hdone).append hrest

end

/-- The bytes `p` can be read in place of `q`: if they come before bytes that can be read in place
of those behind `q`, the whole leads where it led. -/
def ReadsLike (codec : Codec) (slots : Slots) (p q : List UInt8) : Prop :=
  ∀ (m m' : Message) (rest rest' : List UInt8),
    (∀ x, Leads codec slots rest' x m' → Leads codec slots rest x m') →
    Leads codec slots (q ++ rest') m m' → Leads codec slots (p ++ rest) m m'

namespace ReadsLike

variable {codec : Codec} {slots : Slots} {slot : Slot} {number : UInt32} {p q p' q' : List UInt8}

theorem nil : ReadsLike codec slots [] [] := fun m _ _ _ hrest h => hrest m h

theorem append (h : ReadsLike codec slots p q) (h' : ReadsLike codec slots p' q') :
    ReadsLike codec slots (p ++ p') (q ++ q') := by
  intro m m' rest rest' hrest hleads
  rw [List.append_assoc] at hleads ⊢
  exact h m m' _ _ (fun x hx => h' x m' rest rest' hrest hx) hleads

theorem leads (h : ReadsLike codec slots p q) {m m' : Message} (hq : Leads codec slots q m m') :
    Leads codec slots p m m' := by
  have hleads := h m m' [] [] (fun _ hx => hx)
  rw [List.append_nil, List.append_nil] at hleads
  exact hleads hq

theorem of_takes {occurrence : Occurrence} (h : Takes (codec.readRecord slots) p occurrence) :
    ReadsLike codec slots p p := by
  intro m m' rest rest' hrest hleads
  obtain ⟨next, henter, hnext⟩ := (leads_takes_iff h).1 hleads
  exact (leads_takes_iff h).2 ⟨next, henter, hrest next hnext⟩

theorem of_records {numbers : List UInt32} (h : Records numbers p)
    (hslots : ∀ n ∈ numbers, slots n = none) : ReadsLike codec slots p [] := by
  intro m m' rest rest' hrest hleads offset
  rw [decodeInto_records h hslots]
  exact hrest m hleads _

theorem body (hslot : slots number = some slot) (hnumber : IsFieldNumber number) {nested : Nested}
    (hform : slot.form = .nested nested) {inner : Slots}
    (hinner : ∀ old opened start, codec.openNested slot.path nested old = .ok (opened, start) →
      opened = inner)
    (hp : p.length < UInt64.size) (hq : q.length < UInt64.size) (h : ReadsLike codec inner p q) :
    ReadsLike codec slots (bodyRecord number p) (bodyRecord number q) := by
  intro m m' rest rest' hrest hleads
  obtain ⟨opened, start, done, hopen, hdone, hnext⟩ :=
    (leads_bodyRecord_iff hslot hnumber hform hq).1 hleads
  obtain rfl := hinner _ opened start hopen
  exact (leads_bodyRecord_iff hslot hnumber hform hp).2
    ⟨opened, start, done, hopen, h.leads hdone, hrest _ hnext⟩

end ReadsLike

/-! ## Lengths -/

theorem length_varintBytes_le {n n' : Nat} (h : n ≤ n') :
    (varintBytes n).length ≤ (varintBytes n').length := by
  fun_induction varintBytes n' generalizing n with
  | case1 n' hlt =>
    rw [varintBytes_of_lt (by omega)]
    simp
  | case2 n' hge ih =>
    by_cases hn : n < 128
    · rw [varintBytes_of_lt hn]
      simp
    · rw [varintBytes_of_ge (by omega)]
      have := ih (Nat.div_le_div_right h)
      simpa using this

theorem length_bodyRecord_le (number : UInt32) {p q : List UInt8} (hp : p.length < UInt64.size)
    (h : q.length ≤ p.length) :
    (bodyRecord number q).length ≤ (bodyRecord number p).length := by
  have hvarint := length_varintBytes_le h
  simp only [bodyRecord, lengthPrefixed, encodeVarint, List.length_append,
    UInt64.toNat_ofNat_of_lt' hp, UInt64.toNat_ofNat_of_lt' (Nat.lt_of_le_of_lt h hp)]
  omega

/-- Unless they are too long for their lengths to be written, the bytes `p` can be read in place of
`q`, which are no longer. -/
def Covers (codec : Codec) (slots : Slots) (p q : List UInt8) : Prop :=
  p.length < UInt64.size → q.length ≤ p.length ∧ ReadsLike codec slots p q

namespace Covers

variable {codec : Codec} {slots : Slots} {slot : Slot} {number : UInt32} {p q p' q' : List UInt8}

theorem nil : Covers codec slots [] [] := fun _ => ⟨Nat.le_refl _, .nil⟩

theorem append (h : Covers codec slots p q) (h' : Covers codec slots p' q') :
    Covers codec slots (p ++ p') (q ++ q') := by
  intro hlen
  rw [List.length_append] at hlen
  obtain ⟨hle, hreads⟩ := h (by omega)
  obtain ⟨hle', hreads'⟩ := h' (by omega)
  refine ⟨?_, hreads.append hreads'⟩
  rw [List.length_append, List.length_append]
  omega

theorem of_takes
    (h : p.length < UInt64.size → ∃ occurrence, Takes (codec.readRecord slots) p occurrence) :
    Covers codec slots p p := by
  intro hlen
  obtain ⟨occurrence, htakes⟩ := h hlen
  exact ⟨Nat.le_refl _, .of_takes htakes⟩

theorem of_ofNumber (h : p.length < UInt64.size → OfNumber number p) (hslot : slots number = none) :
    Covers codec slots p [] := by
  intro hlen
  obtain ⟨numbers, hrecords, hnumbers⟩ := h hlen
  refine ⟨Nat.zero_le _, .of_records hrecords fun n hn => ?_⟩
  rw [hnumbers n hn, hslot]

theorem body {inner : Slots} (h : Covers codec inner p q) (hslot : slots number = some slot)
    (hnumber : IsFieldNumber number) {nested : Nested} (hform : slot.form = .nested nested)
    (hinner : ∀ old opened start, codec.openNested slot.path nested old = .ok (opened, start) →
      opened = inner) :
    Covers codec slots (bodyRecord number p) (bodyRecord number q) := by
  intro hlen
  have hp : p.length < UInt64.size := by
    simp only [bodyRecord, lengthPrefixed, List.length_append] at hlen
    omega
  obtain ⟨hle, hreads⟩ := h hp
  exact ⟨length_bodyRecord_le number hp hle,
    .body hslot hnumber hform hinner hp (Nat.lt_of_le_of_lt hle hp) hreads⟩

end Covers

/-! ## Values -/

section

variable {codec : Codec} {keep : MessageDecl → Field → Bool} {level : MessageDecl → Message → Prop}

variable (codec keep) in
/-- What the full schema writes of a message can be read in place of what the smaller schema writes
of the restricted message. -/
def Mirrors (decl : MessageDecl) (m : Message) : Prop :=
  ∃ p q, codec.encodeAs decl m = .ok p ∧
    (codec.trim keep).encodeAs (decl.trim keep)
      (m.restrict (codec.trim keep) (decl.trim keep)) = .ok q ∧
    Covers (codec.trim keep) (slotsOf (decl.trim keep)) p q

theorem scalarBytes_trim (v : Value) (kind : FieldKind) (path : String) :
    (codec.trim keep).scalarBytes v kind path = codec.scalarBytes v kind path := rfl

theorem isZero_trim (v : Value) (kind : FieldKind) (path : String) :
    (codec.trim keep).isZero kind path v = codec.isZero kind path v := rfl

theorem Conforms.covers (hsound : codec.Sound) {kind : FieldKind} {v : Value}
    (h : Conforms codec (canonical level) (Mirrors codec keep) kind v) (path : String) :
    ∃ p q, (v.view codec.valueBytes).write kind path = .ok p ∧
      ((v.restrict (codec.trim keep) kind).view (codec.trim keep).valueBytes).write kind path =
        .ok q ∧
      ∀ {slots : Slots} {slot : Slot} {number : UInt32} {repeated : Bool},
        slots number = some slot → IsFieldNumber number → slot.form = .ofKind kind repeated →
        Covers (codec.trim keep) slots (encodeTag number kind.wireType ++ p)
          (encodeTag number kind.wireType ++ q) := by
  cases h with
  | scalar hfits =>
    have hfits' : Fits (codec.trim keep) EnumDecl.Canonical kind v := hfits.trim
    obtain ⟨bs, hbs, htakes⟩ := scalarBytes_takes hsound.trim.enums hfits' path
    refine ⟨bs, bs, (write_of_fits hfits path).trans hbs, ?_, ?_⟩
    · rw [Value.restrict_of_fits hfits, write_of_fits hfits', hbs]
    · intro slots slot number repeated hslot hnumber hform
      have hne : ∀ target, kind ≠ .message target := by
        rintro target rfl
        cases hfits
      rw [Form.ofKind_of_ne hne] at hform
      refine .of_takes fun hlen => ?_
      rw [List.length_append] at hlen
      exact ⟨_, takes_scalarRecord hslot hnumber hform (htakes (by omega) _)⟩
  | @message target decl m hdecl hm =>
    obtain ⟨p, q, hp, hq, hcovers⟩ := hm
    refine ⟨lengthPrefixed p, lengthPrefixed q, ?_, ?_, ?_⟩
    · rw [write_message hdecl, hp]
      rfl
    · rw [Value.restrict_message (message_trim hdecl), write_message (message_trim hdecl), hq]
      rfl
    · intro slots slot number repeated hslot hnumber hform
      refine hcovers.body hslot hnumber hform fun old opened start hopen => ?_
      obtain ⟨decl', hdecl', rfl, -⟩ := exists_of_openNested hsound.trim hopen
      rw [message_trim hdecl] at hdecl'
      cases hdecl'
      rfl

/-! ## Lists -/

theorem items_cover (hsound : codec.Sound) {info : FieldInfo} {items : List Value}
    (h : ∀ v ∈ items, Conforms codec (canonical level) (Mirrors codec keep) info.kind v)
    {slots : Slots} {slot : Slot} (hslot : slots info.number = some slot)
    (hnumber : IsFieldNumber info.number) (hform : slot.form = .ofKind info.kind true)
    (path : String) :
    ∃ p q, itemRecords info path (items.map fun v => (v.view codec.valueBytes).write) = .ok p ∧
      itemRecords info path ((items.map (·.restrict (codec.trim keep) info.kind)).map
        fun v => (v.view (codec.trim keep).valueBytes).write) = .ok q ∧
      Covers (codec.trim keep) slots p q := by
  induction items with
  | nil => exact ⟨[], [], rfl, rfl, .nil⟩
  | cons v rest ih =>
    rw [List.forall_mem_cons] at h
    obtain ⟨p, q, hp, hq, hcovers⟩ := h.1.covers hsound path
    obtain ⟨p', q', hp', hq', hcovers'⟩ := ih h.2
    refine ⟨_, _, ?_, ?_, (hcovers hslot hnumber hform).append hcovers'⟩
    · simp only [List.map_cons, itemRecords, valueRecord, hp, hp']
    · simp only [List.map_cons, itemRecords, valueRecord, hq, hq']

theorem packed_covers (hsound : codec.Sound) {info : FieldInfo} {items : List Value}
    (h : ∀ v ∈ items, Fits codec EnumDecl.Canonical info.kind v)
    {slots : Slots} {slot : Slot} (hslot : slots info.number = some slot)
    (hnumber : IsFieldNumber info.number) (hform : slot.form = .scalar info.kind true)
    (hpack : info.kind.isPackable = true) (path : String) :
    ∃ body, packedBytes info.kind path (items.map fun v => (v.view codec.valueBytes).write) =
        .ok body ∧
      packedBytes info.kind path
        (items.map fun v => (v.view (codec.trim keep).valueBytes).write) = .ok body ∧
      Covers (codec.trim keep) slots (bodyRecord info.number body)
        (bodyRecord info.number body) := by
  have hfits : ∀ v ∈ items, Fits (codec.trim keep) EnumDecl.Canonical info.kind v :=
    fun v hv => (h v hv).trim
  obtain ⟨body, hbody, hread⟩ := packed_written hsound.trim hfits path
  refine ⟨body, ?_, hbody, .of_takes fun hlen => ?_⟩
  · rw [← hbody]
    refine packedBytes_congr fun v hv => ?_
    rw [write_of_fits (h v hv), write_of_fits (hfits v hv), scalarBytes_trim]
  · have hshort : body.length < UInt64.size := by
      simp only [bodyRecord, lengthPrefixed, List.length_append] at hlen
      omega
    exact ⟨_, takes_packedRecord hslot hnumber hform hpack hshort (hread hshort _)⟩

theorem list_covers (hsound : codec.Sound) {info : FieldInfo} {items : List Value}
    (h : ∀ v ∈ items, Conforms codec (canonical level) (Mirrors codec keep) info.kind v)
    {slots : Slots} {slot : Slot} (hslot : slots info.number = some slot)
    (hnumber : IsFieldNumber info.number) (hform : slot.form = .ofKind info.kind true)
    (path : String) :
    ∃ p q, listRecords info path (items.map fun v => (v.view codec.valueBytes).write) = .ok p ∧
      listRecords info path ((items.map (·.restrict (codec.trim keep) info.kind)).map
        fun v => (v.view (codec.trim keep).valueBytes).write) = .ok q ∧
      Covers (codec.trim keep) slots p q := by
  by_cases hempty : items = []
  · subst hempty
    exact ⟨[], [], rfl, rfl, .nil⟩
  · cases hpack : info.kind.isPackable with
    | false =>
      obtain ⟨p, q, hp, hq, hcovers⟩ := items_cover hsound h hslot hnumber hform path
      refine ⟨p, q, ?_, ?_, hcovers⟩
      · simpa [listRecords, hempty, hpack] using hp
      · simpa [listRecords, hempty, hpack] using hq
    | true =>
      have hne : ∀ target, info.kind ≠ .message target := by
        intro target htarget
        rw [htarget] at hpack
        cases hpack
      have hfits : ∀ v ∈ items, Fits codec EnumDecl.Canonical info.kind v :=
        fun v hv => (h v hv).fits hne
      have hsame : items.map (·.restrict (codec.trim keep) info.kind) = items := by
        have hid : ∀ v ∈ items, v.restrict (codec.trim keep) info.kind = id v :=
          fun v hv => Value.restrict_of_fits (hfits v hv)
        rw [List.map_congr_left hid, List.map_id]
      rw [Form.ofKind_of_ne hne] at hform
      obtain ⟨body, hbody, hbody', hcovers⟩ :=
        packed_covers hsound hfits hslot hnumber hform hpack path
      refine ⟨_, _, ?_, ?_, hcovers⟩
      · simp only [listRecords, List.isEmpty_map, List.isEmpty_iff, hempty, hpack, hbody, if_true,
          if_false]
        rfl
      · simp only [hsame, listRecords, List.isEmpty_map, List.isEmpty_iff, hempty, hpack, hbody',
          if_true, if_false]
        rfl

/-! ## Maps -/

theorem slots_of_openNested_entry (hsound : codec.Sound) {info : FieldInfo} {key value : Field}
    (hf : (Field.map info key value).Formed) (hindexed : codec.Indexed value.info.kind)
    {path : String} {old : Option Value} {slots : Slots} {start : Message}
    (hopen : codec.openNested path (.entry key.info value.info) old = .ok (slots, start)) :
    slots = entrySlots path key.info value.info := by
  obtain ⟨k, v, hopened, -, -⟩ :=
    openNested_entry hsound hf hindexed (fun _ _ => True) path old
  rw [hopened] at hopen
  cases hopen
  rfl

theorem entries_cover (hsound : codec.Sound) {info : FieldInfo} {key value : Field}
    (hf : (Field.map info key value).Formed) (hindexed : codec.Indexed value.info.kind)
    {entries : List (String × Value)} (hkeys : ∀ p ∈ entries, IsKeyText key.info.kind p.1)
    (h : ∀ p ∈ entries,
      Conforms codec (canonical level) (Mirrors codec keep) value.info.kind p.2)
    {slots : Slots} {slot : Slot} (hslot : slots info.number = some slot)
    (hnumber : IsFieldNumber info.number)
    (hform : slot.form = .nested (.entry key.info value.info)) (path : String) :
    ∃ p q, codec.entryRecords info.number key.info value.info path
          (entries.map fun e => (e.1, (e.2.view codec.valueBytes).write)) = .ok p ∧
      (codec.trim keep).entryRecords info.number key.info value.info path
          ((entries.map fun e => (e.1, e.2.restrict (codec.trim keep) value.info.kind)).map
            fun e => (e.1, (e.2.view (codec.trim keep).valueBytes).write)) = .ok q ∧
      Covers (codec.trim keep) slots p q := by
  have hones : key.info.number = 1 ∧ value.info.number = 2 := by
    cases hf with | map _ _ _ _ _ hone htwo _ _ => exact ⟨hone, htwo⟩
  induction entries with
  | nil => exact ⟨[], [], rfl, rfl, .nil⟩
  | cons e rest ih =>
    obtain ⟨text, v⟩ := e
    rw [List.forall_mem_cons] at hkeys h
    obtain ⟨p', q', hp', hq', hcovers'⟩ := ih hkeys.2 h.2
    obtain ⟨k, hk, -, hfits⟩ :=
      exists_key_of_isKeyText codec EnumDecl.Canonical hkeys.1
    -- The key is covered as any single value is; it is no message, so both keys are the same.
    have hkey : Conforms codec (canonical level) (Mirrors codec keep) key.info.kind k :=
      .scalar hfits
    obtain ⟨kp, kq, hkp, hkq, hkcovers⟩ := hkey.covers hsound path
    rw [write_of_fits hfits] at hkp
    rw [Value.restrict_of_fits hfits, write_of_fits hfits.trim] at hkq
    obtain ⟨vp, vq, hvp, hvq, hvcovers⟩ := h.1.covers hsound path
    have hentry : Covers (codec.trim keep) (entrySlots slot.path key.info value.info)
        (encodeTag 1 key.info.kind.wireType ++ kp ++ (encodeTag 2 value.info.kind.wireType ++ vp))
        (encodeTag 1 key.info.kind.wireType ++ kq ++ (encodeTag 2 value.info.kind.wireType ++ vq)) :=
      (hkcovers rfl (by decide) rfl).append (hvcovers rfl (by decide) rfl)
    have hbody := hentry.body hslot hnumber hform fun _ _ _ hopen =>
      slots_of_openNested_entry hsound.trim hf hindexed.trim hopen
    refine ⟨_, _, ?_, ?_, hbody.append hcovers'⟩
    · simp only [List.map_cons, entryRecords, entryBytes, hk, valueRecord, hkp, hvp, hp', hones.1,
        hones.2]
    · simp only [List.map_cons, entryRecords, entryBytes, hk, valueRecord, hkq, hvq, hq', hones.1,
        hones.2]

/-! ## Fields -/

theorem single_covers (hsound : codec.Sound) {info : FieldInfo} (hf : (Field.plain info).Formed)
    (hsingle : info.repeated = false) {v : Value}
    (h : Conforms codec (canonical level) (Mirrors codec keep) info.kind v) {slots : Slots}
    {slot : Slot} (hslot : slots info.number = some slot) (hnumber : IsFieldNumber info.number)
    (hform : slot.form = .ofKind info.kind false) (path : String) :
    ∃ p q, codec.singleRecord (.plain info) path (v.view codec.valueBytes) = .ok p ∧
      (codec.trim keep).singleRecord (.plain info) path
        ((v.restrict (codec.trim keep) info.kind).view (codec.trim keep).valueBytes) = .ok q ∧
      Covers (codec.trim keep) slots p q := by
  obtain ⟨p, q, hp, hq, hcovers⟩ := h.covers hsound path
  have hrecords := hcovers hslot hnumber hform
  cases himplicit : (Field.plain info).implicitPresence with
  | false =>
    refine ⟨_, _, ?_, ?_, hrecords⟩
    · simp only [singleRecord, himplicit, Bool.false_eq_true, if_false, valueRecord, Field.info, hp]
    · simp only [singleRecord, himplicit, Bool.false_eq_true, if_false, valueRecord, Field.info, hq]
  | true =>
    obtain ⟨-, -, hinitial⟩ := initial_implicit hf himplicit
    have hfits : Fits codec EnumDecl.Canonical info.kind v :=
      ((Holds.single hsingle h).fits_of_implicit himplicit).1
    obtain ⟨zero, hzero, -, -⟩ := isZero_spec (hsound.enums.namesApart _) hinitial hfits path
    rw [Value.restrict_of_fits hfits] at hq ⊢
    cases zero with
    | true =>
      refine ⟨[], [], ?_, ?_, .nil⟩
      · simp only [singleRecord, himplicit, if_true, Value.view_value, Field.info, hzero]
      · simp only [singleRecord, himplicit, if_true, Value.view_value, Field.info, isZero_trim,
          hzero]
    | false =>
      refine ⟨_, _, ?_, ?_, hrecords⟩
      · simp only [singleRecord, himplicit, if_true, Value.view_value, Field.info, hzero,
          valueRecord, hp]
      · simp only [singleRecord, himplicit, if_true, Value.view_value, Field.info, isZero_trim,
          hzero, valueRecord, hq]

theorem Holds.covers (hsound : codec.Sound) {decl : MessageDecl} (hdecl : decl ∈ codec.messages)
    {field : Field} (hf : field ∈ (decl.trim keep).fields) {v : Value}
    (h : Holds codec (canonical level) (Mirrors codec keep) field v) (path : String) :
    ∃ p q, codec.fieldRecords field path (v.view codec.valueBytes) = .ok p ∧
      (codec.trim keep).fieldRecords field path
        ((v.restrict (codec.trim keep) field.contentKind).view (codec.trim keep).valueBytes) =
          .ok q ∧
      Covers (codec.trim keep) (slotsOf (decl.trim keep)) p q := by
  have hslot := slotsOf_number (hsound.numbers decl hdecl).trim hf
  have hf := (MessageDecl.mem_trim.1 hf).1
  have hnumber := hsound.range decl hdecl field hf
  have hformed := hsound.formed decl hdecl field hf
  cases h with
  | @single info v hsingle hv =>
    have hform : (slotOf (decl.trim keep) (.plain info)).form = .ofKind info.kind false := by
      rw [← hsingle]
      rfl
    simp only [fieldRecords, hsingle, Bool.false_eq_true, if_false]
    exact single_covers hsound hformed hsingle hv hslot hnumber hform path
  | @list info items hrep hvs =>
    have hform : (slotOf (decl.trim keep) (.plain info)).form = .ofKind info.kind true := by
      rw [← hrep]
      rfl
    simp only [fieldRecords, hrep, if_true, Field.contentKind, Value.restrict_list, Value.view,
      Value.writers_eq_map]
    exact list_covers hsound hvs hslot hnumber hform path
  | @map info key value entries hsorted hkeys hvs =>
    simp only [fieldRecords, Field.contentKind, Value.restrict_map, Value.view,
      Value.entryWriters_eq_map]
    exact entries_cover hsound hformed (hsound.indexed decl hdecl _ hf) hkeys hvs hslot hnumber rfl
      path

/-! ## Messages -/

theorem slotsOf_trim_of_not_keep {decl : MessageDecl} (hnumbers : decl.DistinctNumbers)
    {field : Field} (hf : field ∈ decl.fields) (hdropped : keep decl field = false) :
    slotsOf (decl.trim keep) field.info.number = none := by
  refine slotsOf_eq_none fun g hg hnumber => ?_
  obtain ⟨hg, hkept⟩ := MessageDecl.mem_trim.1 hg
  obtain rfl : g = field := List.inj_on_of_nodup_map hnumbers hg hf hnumber
  rw [hdropped] at hkept
  cases hkept

theorem dropped_cover (hsound : codec.Sound) {decl : MessageDecl} (hdecl : decl ∈ codec.messages)
    {field : Field} (hf : field ∈ decl.fields) (hdropped : keep decl field = false) {m : Message}
    (h : ∀ v, m.get? field.info.name = some v →
      Holds codec (canonical level) (Returns codec) field v) :
    ∃ p, codec.presentRecords decl (Value.fieldViews codec.valueBytes m.fields) field = .ok p ∧
      Covers (codec.trim keep) (slotsOf (decl.trim keep)) p [] := by
  have hslot := slotsOf_trim_of_not_keep (hsound.numbers decl hdecl) hf hdropped
  rw [presentRecords_eq]
  cases hv : m.get? field.info.name with
  | none => exact ⟨[], rfl, .nil⟩
  | some v =>
    obtain ⟨p, hp, -⟩ := (h v hv).written hsound hdecl hf (fieldPath decl field.info)
    have hofNumber := fieldRecords_ofNumber (hsound.range decl hdecl field hf) hp
    exact ⟨p, hp, .of_ofNumber hofNumber hslot⟩

theorem kept_cover (hsound : codec.Sound) {decl : MessageDecl} (hdecl : decl ∈ codec.messages)
    {field : Field} (hf : field ∈ (decl.trim keep).fields) {m : Message}
    (h : ∀ v, m.get? field.info.name = some v →
      Holds codec (canonical level) (Mirrors codec keep) field v) :
    ∃ p q, codec.presentRecords decl (Value.fieldViews codec.valueBytes m.fields) field = .ok p ∧
      (codec.trim keep).presentRecords (decl.trim keep)
        (Value.fieldViews (codec.trim keep).valueBytes
          (m.restrict (codec.trim keep) (decl.trim keep)).fields) field = .ok q ∧
      Covers (codec.trim keep) (slotsOf (decl.trim keep)) p q := by
  rw [presentRecords_eq, presentRecords_eq,
    Message.get?_restrict (hsound.properties decl hdecl).trim hf]
  cases hv : m.get? field.info.name with
  | none => exact ⟨[], [], rfl, rfl, .nil⟩
  | some v => exact (h v hv).covers hsound hdecl hf _

theorem recordsOf_cover (hsound : codec.Sound) {decl : MessageDecl} (hdecl : decl ∈ codec.messages)
    {m : Message}
    (hreturns : ∀ field ∈ decl.fields, ∀ v, m.get? field.info.name = some v →
      Holds codec (canonical level) (Returns codec) field v)
    (hmirrors : ∀ field ∈ decl.fields, ∀ v, m.get? field.info.name = some v →
      Holds codec (canonical level) (Mirrors codec keep) field v)
    {fields : List Field} (hsub : ∀ field ∈ fields, field ∈ decl.fields) :
    ∃ p q, codec.recordsOf decl (Value.fieldViews codec.valueBytes m.fields) fields = .ok p ∧
      (codec.trim keep).recordsOf (decl.trim keep)
        (Value.fieldViews (codec.trim keep).valueBytes
          (m.restrict (codec.trim keep) (decl.trim keep)).fields)
        (fields.filter (keep decl)) = .ok q ∧
      Covers (codec.trim keep) (slotsOf (decl.trim keep)) p q := by
  induction fields with
  | nil => exact ⟨[], [], rfl, rfl, .nil⟩
  | cons field rest ih =>
    rw [List.forall_mem_cons] at hsub
    obtain ⟨p', q', hp', hq', hcovers'⟩ := ih hsub.2
    cases hkeep : keep decl field with
    | false =>
      -- Nothing stands for the records of a dropped field on the other side.
      obtain ⟨p, hp, hcovers⟩ := dropped_cover hsound hdecl hsub.1 hkeep (hreturns field hsub.1)
      refine ⟨_, _, ?_, ?_, hcovers.append hcovers'⟩
      · simp only [recordsOf, hp, hp']
      · rw [List.filter_cons_of_neg (by simp [hkeep])]
        exact hq'
    | true =>
      obtain ⟨p, q, hp, hq, hcovers⟩ := kept_cover hsound hdecl
        (MessageDecl.mem_trim.2 ⟨hsub.1, hkeep⟩) (hmirrors field hsub.1)
      refine ⟨_, _, ?_, ?_, hcovers.append hcovers'⟩
      · simp only [recordsOf, hp, hp']
      · rw [List.filter_cons_of_pos hkeep]
        simp only [recordsOf, hq, hq']

theorem ConformsTo.mirrors (hsound : codec.Sound)
    (hlevel : ∀ decl m, level decl m → OneOfEach decl m) {decl : MessageDecl} {m : Message}
    (h : ConformsTo codec (canonical level) decl m) :
    decl ∈ codec.messages → Mirrors codec keep decl m := by
  refine ConformsTo.induct (fun decl m hm ih hdecl => ?_) h
  have hreturns : ∀ field ∈ decl.fields, ∀ v, m.get? field.info.name = some v →
      Holds codec (canonical level) (Returns codec) field v := by
    intro field hf v hv
    exact (ih field hf v hv).imp fun _ _ _ _ hd hx => hx.1.returns hsound hlevel (mem_of_message hd)
  have hmirrors : ∀ field ∈ decl.fields, ∀ v, m.get? field.info.name = some v →
      Holds codec (canonical level) (Mirrors codec keep) field v := by
    intro field hf v hv
    exact (ih field hf v hv).imp fun _ _ _ _ hd hx => hx.2 (mem_of_message hd)
  exact recordsOf_cover hsound hdecl hreturns hmirrors fun _ hf => hf

end

/-! ## Writing with a newer schema and reading with an older one -/

/-- A message of a schema is read, by a schema that lacks some fields of some types, as the message
without the properties that are missing there, in every message in it as well, and with absent
fields at their defaults. Lengths are written in 64 bits, so the bytes have to be fewer than
2^64. -/
theorem decode_encode_trim {codec : Codec} (hresolved : codec.Resolved) (hvalid : codec.Valid)
    (keep : MessageDecl → Field → Bool) {typeName : String} {decl : MessageDecl} {m : Message}
    (htype : codec.message typeName = .ok decl) (hown : codec.message m.typeName = .ok decl)
    (hm : ConformsTo codec (canonical fun decl m => OneOfEach decl m ∧ NoNegativeZero decl m)
      decl m) :
    ∃ bytes, codec.encode m = .ok bytes ∧
      (bytes.length < UInt64.size →
        (codec.trim keep).decode typeName bytes =
          .ok ((m.restrict (codec.trim keep) (decl.trim keep)).revise (codec.trim keep)
            (codec.trim keep).fill (decl.trim keep))) := by
  have hsound := hresolved.sound hvalid
  have hdecl := mem_of_message htype
  have htype' : (codec.trim keep).message typeName = .ok (decl.trim keep) := message_trim htype
  have hrestrict : ConformsTo (codec.trim keep)
      (canonical fun decl m => OneOfEach decl m ∧ NoNegativeZero decl m) (decl.trim keep)
      (m.restrict (codec.trim keep) (decl.trim keep)) := by
    refine hm.restrict hsound (fun d hd x hx => ?_) hdecl
    have hnames := hsound.properties d hd
    exact ⟨hx.level.1.restrict hnames, hx.noNegativeZero_restrict hnames hx.level.2⟩
  have hmirrors : Mirrors codec keep decl m :=
    hm.mirrors hsound (fun _ _ hlevel => hlevel.1) hdecl
  obtain ⟨p, q, hp, hq, hcovers⟩ := hmirrors
  refine ⟨p, by simp only [encode, hown, hp], fun hlen => ?_⟩
  obtain ⟨hle, hreads⟩ := hcovers hlen
  -- The smaller schema reads back what it would have written itself.
  obtain ⟨body, hbody, hleads⟩ :=
    hrestrict.returns hsound.trim (fun _ _ hlevel => hlevel.1) (mem_of_message htype')
  rw [hq] at hbody
  cases hbody
  rw [← hrestrict.revise_settle_eq_fill fun _ _ hlevel => hlevel.2]
  simp only [decode, htype', newMessage_eq hsound.trim (mem_of_message htype')]
  exact hreads.leads (hleads (Nat.lt_of_le_of_lt hle hlen)) 0

/-- Trees have neither heights nor marks; all else is kept. -/
def withoutHeightsAndMarks (decl : MessageDecl) (field : Field) : Bool :=
  decl.fqName ≠ "grove.Tree" || (field.info.number ≠ 1 && field.info.number ≠ 3)

/-- The tree as it is written with all its fields. -/
def saplingBytes : List UInt8 :=
  [18, 20, 9, 0, 0, 0, 0, 0, 0, 248, 63, 40, 249, 255, 255, 255, 255, 255, 255, 255, 255, 1,
    26, 4, 8, 5, 16, 1, 26, 4, 8, 24, 16, 9]

/-- Of the tree and its branch, what is known of trees without heights and marks is read. -/
theorem decode_encode_trim_sapling :
    (grove .double {}).Resolved ∧ (grove .double {}).Valid ∧
      ConformsTo (grove .double {})
        (canonical fun decl m => OneOfEach decl m ∧ NoNegativeZero decl m)
        (groveTree .double) sapling ∧
      (grove .double {}).encode sapling = .ok saplingBytes ∧
      ((grove .double {}).trim withoutHeightsAndMarks).decode ".grove.Tree" saplingBytes =
        .ok ⟨"grove.Tree", [("branches", .list [.message ⟨"grove.Tree",
          [("branches", .list []), ("club", .int64 (-7))]⟩])]⟩ := by
  have hm := conformsTo_of_within 2 (show ConformsWithin (grove .double {})
    (canonical fun decl m => OneOfEach decl m ∧ NoNegativeZero decl m) 2 (groveTree .double)
    sapling by decide +kernel)
  have hwritten : (grove .double {}).encode sapling = .ok saplingBytes := by decide +kernel
  have hleft : (sapling.restrict ((grove .double {}).trim withoutHeightsAndMarks)
      ((groveTree .double).trim withoutHeightsAndMarks)).revise
        ((grove .double {}).trim withoutHeightsAndMarks)
        (fill ((grove .double {}).trim withoutHeightsAndMarks))
        ((groveTree .double).trim withoutHeightsAndMarks) =
      ⟨"grove.Tree", [("branches", .list [.message ⟨"grove.Tree",
        [("branches", .list []), ("club", .int64 (-7))]⟩])]⟩ := by
    cbv
  obtain ⟨bytes, hbytes, hread⟩ := decode_encode_trim resolved_grove_double valid_grove_double
    withoutHeightsAndMarks (show message _ ".grove.Tree" = .ok (groveTree .double) by decide +kernel)
    (by decide +kernel) hm
  obtain rfl : saplingBytes = bytes := Except.ok.inj (hwritten.symm.trans hbytes)
  rw [hleft] at hread
  exact ⟨resolved_grove_double, valid_grove_double, hm, hwritten, hread (by decide)⟩

end ProtoStub.Codec
