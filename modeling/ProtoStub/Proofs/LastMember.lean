import Mathlib
import ProtoStub.Proofs.NestedMessages
import ProtoStub.Proofs.RecordNumbers

/-!
# The last member of a oneof stays

A record of a member of a oneof sets this member and unsets the others, and no other record
touches them (`present_enter`). So after a run the member of the last such record is there and no
other (`present_decodeInto`). Messages inside the message are read by runs of their own, over bytes
that are a part of the whole, and an entry of a map is one more such run; at most one member of
each oneof is there at every depth (`keptBy`).

A oneof is told by its name, as the members tell it.
-/

namespace ProtoStub

open Wire

namespace Codec

variable {codec : Codec}

/-! ## One record -/

theorem Slot.get?_store_eq (slot : Slot) (m : Message) (value : Option Value) (name : String) :
    (slot.store m value).get? name =
      if name ∈ slot.rivals then none
      else if slot.name = name then value.or (m.get? name) else m.get? name := by
  cases value with
  | some v => exact slot.get?_store m v name
  | none =>
    rw [Slot.store, get?_foldl_unset, Message.update, Option.none_or, ite_self]

theorem Within.of_or {P : MessageDecl → Message → Prop} {kind : FieldKind}
    {value old : Option Value} (hvalue : ∀ v, value = some v → Within codec P kind v)
    (hold : ∀ v, old = some v → Within codec P kind v) {v : Value} (h : value.or old = some v) :
    Within codec P kind v := by
  rcases Option.or_eq_some_iff.1 h with h | ⟨-, h⟩
  · exact hvalue v h
  · exact hold v h

section Fields

variable {decl : MessageDecl} {m : Message} {field g : Field} {value : Option Value}

/-- A record of a field leaves another field as it is, or unsets it if the two are members of one
oneof. -/
theorem get?_store_of_ne (hnumbers : decl.DistinctNumbers) (hnames : decl.DistinctProperties)
    (hg : g ∈ decl.fields) (hf : field ∈ decl.fields) (hne : g ≠ field) :
    ((slotOf decl g).store m value).get? field.info.name =
      if g.info.oneof.isSome = true ∧ field.info.oneof = g.info.oneof then none
      else m.get? field.info.name := by
  have hname : ¬ g.info.name = field.info.name :=
    fun heq => hne (List.inj_on_of_nodup_map hnames hg hf heq)
  have hnumber : field.info.number ≠ g.info.number :=
    fun heq => hne (List.inj_on_of_nodup_map hnumbers hg hf heq.symm)
  rw [Slot.get?_store_eq, show (slotOf decl g).name = g.info.name from rfl, if_neg hname]
  simp only [mem_rivals hnames hf, ne_eq, hnumber, not_false_eq_true, and_true]

theorem get?_store_self (hnames : decl.DistinctProperties) (hg : g ∈ decl.fields) :
    ((slotOf decl g).store m value).get? g.info.name = value.or (m.get? g.info.name) := by
  have hrival : ¬ g.info.name ∈ (slotOf decl g).rivals := by
    rw [mem_rivals hnames hg]
    exact fun h => h.2.2 rfl
  rw [Slot.get?_store_eq, if_neg hrival, show (slotOf decl g).name = g.info.name from rfl,
    if_pos rfl]

theorem OneOfEach.store (hnumbers : decl.DistinctNumbers) (hnames : decl.DistinctProperties)
    (hg : g ∈ decl.fields) (hm : OneOfEach decl m) :
    OneOfEach decl ((slotOf decl g).store m value) := by
  intro f hf f' hf' hmember hsame hpresent hpresent'
  by_cases hfg : g = f
  · subst hfg
    by_cases hfg' : g = f'
    · exact hfg'
    · rw [get?_store_of_ne hnumbers hnames hg hf' hfg', if_pos ⟨hmember, hsame.symm⟩] at hpresent'
      cases hpresent'
  · by_cases hfg' : g = f'
    · subst hfg'
      rw [get?_store_of_ne hnumbers hnames hg hf hfg, if_pos ⟨hsame ▸ hmember, hsame⟩] at hpresent
      cases hpresent
    · -- the record is of neither, so both were there before
      rw [get?_store_of_ne hnumbers hnames hg hf hfg] at hpresent
      rw [get?_store_of_ne hnumbers hnames hg hf' hfg'] at hpresent'
      refine hm f hf f' hf' hmember hsame ?_ ?_
      · split at hpresent
        · cases hpresent
        · exact hpresent
      · split at hpresent'
        · cases hpresent'
        · exact hpresent'

/-- One member of each oneof stays one if what a record gives to its field is as good. -/
theorem Throughout.store (hnumbers : decl.DistinctNumbers) (hnames : decl.DistinctProperties)
    (hg : g ∈ decl.fields) (hm : Throughout codec OneOfEach decl m)
    (hvalue : ∀ v, value = some v → Within codec OneOfEach g.contentKind v) :
    Throughout codec OneOfEach decl ((slotOf decl g).store m value) := by
  rw [throughout_iff] at hm ⊢
  refine ⟨hm.1.store hnumbers hnames hg, fun f hf v hv => ?_⟩
  by_cases hfg : g = f
  · subst hfg
    rw [get?_store_self hnames hg] at hv
    exact Within.of_or hvalue (hm.2 g hg) hv
  · rw [get?_store_of_ne hnumbers hnames hg hf hfg] at hv
    split at hv
    · cases hv
    · exact hm.2 f hf v hv

end Fields

end Codec

/-! ## The last member -/

namespace MessageDecl

/-- The member of a oneof with a field number. -/
def member? (decl : MessageDecl) (oneof : String) (number : UInt32) : Option Field :=
  decl.fields.find? fun field => field.info.oneof = some oneof && field.info.number = number

/-- The member of a oneof whose number comes last among some field numbers. -/
def lastMember? (decl : MessageDecl) (oneof : String) (numbers : List UInt32) : Option Field :=
  numbers.reverse.findSome? (decl.member? oneof)

variable {decl : MessageDecl} {oneof : String} {number : UInt32}

theorem member?_of_mem (hnumbers : decl.DistinctNumbers) {g : Field} (hg : g ∈ decl.fields)
    (honeof : g.info.oneof = some oneof) : decl.member? oneof g.info.number = some g := by
  cases hfind : decl.member? oneof g.info.number with
  | none =>
    have := List.find?_eq_none.1 hfind g hg
    simp [honeof] at this
  | some f =>
    have hf := List.find?_some hfind
    simp only [Bool.and_eq_true, decide_eq_true_eq] at hf
    rw [List.inj_on_of_nodup_map hnumbers (List.mem_of_find?_eq_some hfind) hg hf.2]

theorem member?_eq_none
    (h : ∀ g ∈ decl.fields, g.info.number = number → g.info.oneof ≠ some oneof) :
    decl.member? oneof number = none := by
  refine List.find?_eq_none.2 fun g hg hmember => ?_
  simp only [Bool.and_eq_true, decide_eq_true_eq] at hmember
  exact h g hg hmember.2 hmember.1

theorem lastMember?_cons (numbers : List UInt32) :
    decl.lastMember? oneof (number :: numbers) =
      (decl.lastMember? oneof numbers).or (decl.member? oneof number) := by
  rw [lastMember?, lastMember?, List.reverse_cons, List.findSome?_append]
  simp

end MessageDecl

namespace Codec

variable {codec : Codec}

/-- What a record changes: nothing, or the property of its field and its rivals. A field that
holds one value has one afterwards. -/
theorem exists_store_of_enter {slots : Slots} {occurrence : Occurrence} {m next : Message}
    (hread : Reads codec slots occurrence) (h : codec.enter m occurrence = .ok next) :
    occurrence.slot? = none ∧ next = m ∨
      ∃ slot value, occurrence.slot? = some slot ∧ next = slot.store m value ∧
        ((∀ kind, slot.form ≠ .scalar kind true) → value.isSome = true) := by
  cases hread with
  | unknown =>
    cases h
    exact .inl ⟨rfl, rfl⟩
  | @scalars _ slot kind repeated values _ hform _ hcount =>
    cases h
    refine .inr ⟨slot, _, rfl, rfl, fun hsingle => ?_⟩
    rcases hcount with rfl | ⟨v, rfl⟩
    · exact absurd hform (hsingle kind)
    · rw [absorb_singleton]
      rfl
  | @body _ slot nested content =>
    obtain ⟨inner, start, done, -, -, rfl⟩ := exists_of_enter_body h
    exact .inr ⟨slot, _, rfl, rfl, fun _ => rfl⟩

theorem ofField_ne_of_isSingle {field : Field} (h : field.isSingle = true) (kind : FieldKind) :
    Form.ofField field ≠ .scalar kind true := by
  cases field with
  | map info key value => cases h
  | plain info =>
    intro hform
    have hrepeated := (Form.ofKind_eq_scalar hform).2
    simp [Field.isSingle, ← hrepeated] at h

theorem exists_numbered_of_slotsOf {decl : MessageDecl} {number : UInt32} {slot : Slot}
    (h : slotsOf decl number = some slot) :
    ∃ field ∈ decl.fields, field.info.number = number ∧ slot = slotOf decl field := by
  obtain ⟨field, hfield, rfl⟩ := Option.map_eq_some_iff.1 h
  exact ⟨field, List.mem_of_find?_eq_some hfield, by simpa using List.find?_some hfield, rfl⟩

section LastMember

variable {decl : MessageDecl} {oneof : String} {field : Field}

/-- The record of a field that is a member of the oneof leaves this member and no other; any other
record leaves what there was. -/
theorem present_store (hnumbers : decl.DistinctNumbers) (hnames : decl.DistinctProperties)
    {g : Field} (hg : g ∈ decl.fields) (hf : field ∈ decl.fields)
    (honeof : field.info.oneof = some oneof) {m : Message} {value : Option Value}
    (hvalue : g.info.oneof.isSome = true → value.isSome = true) :
    (((slotOf decl g).store m value).get? field.info.name).isSome = true ↔
      decl.member? oneof g.info.number = some field ∨
        decl.member? oneof g.info.number = none ∧ (m.get? field.info.name).isSome = true := by
  by_cases hmember : g.info.oneof = some oneof
  · rw [MessageDecl.member?_of_mem hnumbers hg hmember]
    have hsome : g.info.oneof.isSome = true := by
      rw [hmember]
      rfl
    by_cases heq : g = field
    · subst heq
      rw [get?_store_self hnames hg, Option.isSome_or, hvalue hsome]
      simp
    · rw [get?_store_of_ne hnumbers hnames hg hf heq, if_pos ⟨hsome, honeof.trans hmember.symm⟩]
      simp [heq]
  · have hne : g ≠ field := by
      rintro rfl
      exact hmember honeof
    have hnone : decl.member? oneof g.info.number = none := by
      refine MessageDecl.member?_eq_none fun f hf hnumber => ?_
      rwa [List.inj_on_of_nodup_map hnumbers hf hg hnumber]
    rw [get?_store_of_ne hnumbers hnames hg hf hne, hnone,
      if_neg fun h => hmember (h.2.symm.trans honeof)]
    simp

variable (hmembers : codec.SingleMembers) (hdecl : decl ∈ codec.messages)
  (hnumbers : decl.DistinctNumbers)
include hmembers hdecl hnumbers

theorem present_enter {number : UInt32} {occurrence : Occurrence} {m next : Message}
    (hread : Reads codec (slotsOf decl) occurrence)
    (hslot : slotsOf decl number = occurrence.slot?) (h : codec.enter m occurrence = .ok next)
    (hf : field ∈ decl.fields) (honeof : field.info.oneof = some oneof) :
    (next.get? field.info.name).isSome = true ↔
      decl.member? oneof number = some field ∨
        decl.member? oneof number = none ∧ (m.get? field.info.name).isSome = true := by
  rcases exists_store_of_enter hread h with ⟨hnone, rfl⟩ | ⟨slot, value, hsome, rfl, hvalue⟩
  · -- no field has the number
    have habsent : decl.member? oneof number = none := by
      refine MessageDecl.member?_eq_none fun g hg hnumber => ?_
      rw [hnone, ← hnumber, slotsOf_number hnumbers hg] at hslot
      cases hslot
    rw [habsent]
    simp
  · rw [hsome] at hslot
    obtain ⟨g, hg, rfl, rfl⟩ := exists_numbered_of_slotsOf hslot
    refine present_store hnumbers (hmembers.properties decl hdecl) hg hf honeof fun hmember => ?_
    exact hvalue (ofField_ne_of_isSingle (hmembers.oneofs decl hdecl g hg hmember))

/-- After a run the last member of a oneof is there. Where there is no record of a member, what was
there before the run is. -/
theorem present_decodeInto {c : Cursor} {m m' : Message}
    (h : codec.decodeInto (slotsOf decl) c m = .ok m') :
    ∃ numbers, recordNumbers c = .ok numbers ∧
      ∀ field ∈ decl.fields, ∀ oneof, field.info.oneof = some oneof →
        ((m'.get? field.info.name).isSome = true ↔
          decl.lastMember? oneof numbers = some field ∨
            decl.lastMember? oneof numbers = none ∧
              (m.get? field.info.name).isSome = true) := by
  induction hn : c.size using Nat.strongRecOn generalizing c m with
  | _ n ih =>
    subst hn
    by_cases hbytes : c.bytes = []
    · rw [decodeInto_nil codec _ m hbytes] at h
      cases h
      refine ⟨[], recordNumbers_nil hbytes, fun field hf oneof honeof => ?_⟩
      simp [MessageDecl.lastMember?]
    · obtain ⟨occurrence, rest, next, hread, henter, hrest⟩ := exists_step_of_decodeInto hbytes h
      obtain ⟨number, hnext, hslot⟩ := nextRecord_of_readRecord hread
      obtain ⟨numbers, hrecords, hpresent⟩ :=
        ih rest.size (readRecord_moved hread).1.size_lt hrest rfl
      refine ⟨number :: numbers, recordNumbers_cons hbytes hnext hrecords,
        fun field hf oneof honeof => ?_⟩
      have hstep := present_enter hmembers hdecl hnumbers (reads_of_readRecord hread) hslot henter
        hf honeof
      rw [hpresent field hf oneof honeof, hstep, MessageDecl.lastMember?_cons]
      cases decl.lastMember? oneof numbers <;> simp

end LastMember

/-! ## One member at every depth -/

/-- The kind of the values in the records of a field. -/
def Form.contentKind : Form → FieldKind
  | .scalar kind _ => kind
  | .nested (.message target _) => .message target
  | .nested (.entry _ value) => value.kind

theorem Form.contentKind_ofKind (kind : FieldKind) (repeated : Bool) :
    (Form.ofKind kind repeated).contentKind = kind := by
  cases kind <;> rfl

theorem Form.contentKind_ofField (field : Field) :
    (Form.ofField field).contentKind = field.contentKind := by
  cases field with
  | plain info => exact contentKind_ofKind _ _
  | map info key value => rfl

/-- The parts of a map entry have at most one member of each oneof. -/
structure EntryWithin (codec : Codec) (key value : FieldInfo) (entry : Message) : Prop where
  key : ∀ v, entry.get? keyName = some v → Within codec OneOfEach key.kind v
  value : ∀ v, entry.get? valueName = some v → Within codec OneOfEach value.kind v

/-- A run over some bytes keeps at most one member of each oneof, in a message and in a map
entry. -/
structure KeptBy (codec : Codec) (c : Cursor) : Prop where
  message : ∀ {decl m m'}, decl ∈ codec.messages → Throughout codec OneOfEach decl m →
    codec.decodeInto (slotsOf decl) c m = .ok m' → Throughout codec OneOfEach decl m'
  entry : ∀ {path key value m m'}, EntryWithin codec key value m →
    codec.decodeInto (entrySlots path key value) c m = .ok m' → EntryWithin codec key value m'

theorem SingleMembers.throughout_newMessage (h : codec.SingleMembers) {decl : MessageDecl}
    (hdecl : decl ∈ codec.messages) {m : Message} (hm : codec.newMessage decl = .ok m) :
    Throughout codec OneOfEach decl m := by
  rw [eq_fresh_of_newMessage (h.properties decl hdecl) hm]
  exact h.throughout_fresh hdecl

theorem SingleMembers.within_create (h : codec.SingleMembers) {target : TypeRef} {m : Message}
    (hm : codec.create target.fqName = .ok m) :
    Within codec OneOfEach (.message target) (.message m) := by
  obtain ⟨decl, hdecl, hnew⟩ := Except.exists_of_bind hm
  exact (within_message hdecl).2 (h.throughout_newMessage (mem_of_message hdecl) hnew)

theorem SingleMembers.throughout_openNested (h : codec.SingleMembers) {path : String}
    {target : TypeRef} {repeated : Bool} {old : Option Value} {inner : Slots} {start : Message}
    (hopen : codec.openNested path (.message target repeated) old = .ok (inner, start))
    (hold : ∀ v, old = some v → Within codec OneOfEach (.message target) v) :
    ∃ decl, codec.message target.fqName = .ok decl ∧ inner = slotsOf decl ∧
      Throughout codec OneOfEach decl start := by
  simp only [openNested] at hopen
  split at hopen
  · cases hopen
  next decl hdecl =>
    refine ⟨decl, hdecl, ?_⟩
    split at hopen
    · cases hopen
      exact ⟨rfl, (within_message hdecl).1 (hold _ rfl)⟩
    · obtain ⟨m, hm, hr⟩ := exists_of_map_eq_ok hopen
      cases hr
      exact ⟨rfl, h.throughout_newMessage (mem_of_message hdecl) hm⟩

theorem SingleMembers.entryWithin_openNested (h : codec.SingleMembers) {path : String}
    {key value : FieldInfo} {old : Option Value} {inner : Slots} {start : Message}
    (hopen : codec.openNested path (.entry key value) old = .ok (inner, start)) :
    inner = entrySlots path key value ∧ EntryWithin codec key value start := by
  obtain ⟨k, hk, hopen⟩ := Except.exists_of_bind hopen
  obtain ⟨initial, -, hopen⟩ := Except.exists_of_bind hopen
  have hkey : Within codec OneOfEach key.kind k :=
    within_of_messages_eq_nil (messages_of_zeroOf hk) _
  simp only at hopen
  split at hopen
  next target hkind =>
    obtain ⟨v, hv, hopen⟩ := Except.exists_of_bind hopen
    obtain ⟨m, hm, rfl⟩ := exists_of_map_eq_ok hv
    cases hopen
    have hvalue : Within codec OneOfEach value.kind (.message m) := hkind ▸ h.within_create hm
    exact ⟨rfl, fun _ hw => Option.some.inj hw ▸ hkey, fun _ hw => Option.some.inj hw ▸ hvalue⟩
  next _ v hkind =>
    cases hopen
    exact ⟨rfl, fun _ hw => Option.some.inj hw ▸ hkey, fun w _ => within_of_ne hkind w⟩
  next => cases hopen

/-- What a nested body leaves in its property has at most one member of each oneof. -/
theorem KeptBy.within_close (hmembers : codec.SingleMembers) {content : Cursor}
    (hkept : KeptBy codec content) {path : String} {nested : Nested} {old : Option Value}
    {inner : Slots} {start done : Message}
    (hopen : codec.openNested path nested old = .ok (inner, start))
    (hdone : codec.decodeInto inner content start = .ok done)
    (hold : ∀ v, old = some v → Within codec OneOfEach (Form.nested nested).contentKind v) :
    Within codec OneOfEach (Form.nested nested).contentKind (nested.close old done) := by
  cases nested with
  | message target repeated =>
    obtain ⟨decl, hdecl, rfl, hstart⟩ := hmembers.throughout_openNested hopen hold
    have hmessage : Within codec OneOfEach (.message target) (.message done) :=
      (within_message hdecl).2 (hkept.message (mem_of_message hdecl) hstart hdone)
    cases repeated with
    | false => exact hmessage
    | true => exact hmessage.pushItem hold
  | entry key value =>
    obtain ⟨rfl, hstart⟩ := hmembers.entryWithin_openNested hopen
    have hentry : EntryWithin codec key value done := hkept.entry hstart hdone
    refine Within.putEntry _ hold ?_
    cases hv : done.get? valueName with
    | none => exact within_of_messages_eq_nil rfl _
    | some v => exact hentry.value v hv

/-- The bodies of the records of a message or a map entry are read as they should be. -/
def Occurrence.BodyKept (codec : Codec) (occurrence : Occurrence) : Prop :=
  ∀ slot nested content, occurrence = .body slot nested content → KeptBy codec content

/-- What a record gives to its field has at most one member of each oneof. -/
theorem exists_within_of_enter (hmembers : codec.SingleMembers) {slots : Slots}
    {occurrence : Occurrence} {m next : Message}
    (hform : ∀ {number slot kind repeated}, slots number = some slot →
      slot.form = .scalar kind repeated → ∀ target, kind ≠ .message target)
    (hold : ∀ {number slot v}, slots number = some slot → m.get? slot.name = some v →
      Within codec OneOfEach slot.form.contentKind v)
    (hread : Reads codec slots occurrence) (hbody : occurrence.BodyKept codec)
    (h : codec.enter m occurrence = .ok next) :
    next = m ∨ ∃ number slot value, slots number = some slot ∧ next = slot.store m value ∧
      ∀ v, value = some v → Within codec OneOfEach slot.form.contentKind v := by
  cases hread with
  | unknown =>
    cases h
    exact .inl rfl
  | @scalars number slot kind repeated values hslot hscalar _ _ =>
    cases h
    refine .inr ⟨number, slot, _, hslot, rfl, fun v _ => ?_⟩
    rw [hscalar]
    exact within_of_ne (hform hslot hscalar) v
  | @body number slot nested content hslot hnested =>
    obtain ⟨inner, start, done, hopen, hdone, rfl⟩ := exists_of_enter_body h
    refine .inr ⟨number, slot, _, hslot, rfl, fun v hv => ?_⟩
    cases hv
    have hheld : ∀ v, m.get? slot.name = some v →
        Within codec OneOfEach (Form.nested nested).contentKind v := by
      intro v hv
      rw [← hnested]
      exact hold hslot hv
    rw [hnested]
    exact (hbody slot nested content rfl).within_close hmembers hopen hdone hheld

theorem Form.ne_message_of_ofKind {kind kind' : FieldKind} {repeated repeated' : Bool}
    (h : Form.ofKind kind repeated = .scalar kind' repeated') (target : TypeRef) :
    kind' ≠ .message target := by
  rintro rfl
  rw [← (Form.ofKind_eq_scalar h).1] at h
  cases h

theorem Form.ne_message_of_ofField {field : Field} {kind : FieldKind} {repeated : Bool}
    (h : Form.ofField field = .scalar kind repeated) (target : TypeRef) :
    kind ≠ .message target := by
  cases field with
  | map info key value => cases h
  | plain info => exact ne_message_of_ofKind h target

/-- A record of a message keeps at most one member of each oneof. -/
theorem Throughout.enter (hmembers : codec.SingleMembers) {decl : MessageDecl}
    (hdecl : decl ∈ codec.messages) (hnumbers : decl.DistinctNumbers) {occurrence : Occurrence}
    {m next : Message} (hm : Throughout codec OneOfEach decl m)
    (hread : Reads codec (slotsOf decl) occurrence) (hbody : occurrence.BodyKept codec)
    (h : codec.enter m occurrence = .ok next) : Throughout codec OneOfEach decl next := by
  have hnext := exists_within_of_enter hmembers (m := m) ?_ ?_ hread hbody h
  · rcases hnext with rfl | ⟨number, slot, value, hslot, rfl, hvalue⟩
    · exact hm
    · obtain ⟨field, hf, rfl⟩ := exists_field_of_slotsOf hslot
      rw [show (slotOf decl field).form = .ofField field from rfl, Form.contentKind_ofField]
        at hvalue
      exact hm.store hnumbers (hmembers.properties decl hdecl) hf hvalue
  · intro number slot kind repeated hslot hscalar
    obtain ⟨field, -, rfl⟩ := exists_field_of_slotsOf hslot
    exact Form.ne_message_of_ofField hscalar
  · intro number slot v hslot hv
    obtain ⟨field, hf, rfl⟩ := exists_field_of_slotsOf hslot
    rw [show (slotOf decl field).form = .ofField field from rfl, Form.contentKind_ofField]
    exact (throughout_iff.1 hm).2 field hf v hv

theorem Slot.get?_store_unrivalled {slot : Slot} (h : slot.rivals = []) (m : Message)
    (value : Option Value) (name : String) :
    (slot.store m value).get? name =
      if slot.name = name then value.or (m.get? name) else m.get? name := by
  rw [get?_store_eq, h, if_neg List.not_mem_nil]

/-- A record of a map entry keeps at most one member of each oneof. -/
theorem EntryWithin.enter (hmembers : codec.SingleMembers) {path : String} {key value : FieldInfo}
    {occurrence : Occurrence} {m next : Message} (hm : EntryWithin codec key value m)
    (hread : Reads codec (entrySlots path key value) occurrence)
    (hbody : occurrence.BodyKept codec) (h : codec.enter m occurrence = .ok next) :
    EntryWithin codec key value next := by
  have hnext := exists_within_of_enter hmembers (m := m) ?_ ?_ hread hbody h
  · rcases hnext with rfl | ⟨number, slot, given, hslot, rfl, hgiven⟩
    · exact hm
    · rcases entrySlots_eq_some hslot with rfl | rfl <;>
        simp only [Form.contentKind_ofKind] at hgiven <;>
        refine ⟨fun v hv => ?_, fun v hv => ?_⟩ <;>
        rw [Slot.get?_store_unrivalled rfl] at hv
      · exact Within.of_or hgiven hm.key hv
      · exact hm.value v hv
      · exact hm.key v hv
      · exact Within.of_or hgiven hm.value hv
  · intro number slot kind repeated hslot hscalar
    rcases entrySlots_eq_some hslot with rfl | rfl <;>
      exact Form.ne_message_of_ofKind hscalar
  · intro number slot v hslot hv
    rcases entrySlots_eq_some hslot with rfl | rfl <;> rw [Form.contentKind_ofKind]
    · exact hm.key v hv
    · exact hm.value v hv

/-- What every record of a run keeps, the run keeps. -/
theorem inv_of_decodeInto {slots : Slots} {inv : Message → Prop} {c : Cursor} {m m' : Message}
    (hstep : ∀ {occurrence : Occurrence} {m next : Message}, Reads codec slots occurrence →
      occurrence.Shorter c → inv m → codec.enter m occurrence = .ok next → inv next)
    (hm : inv m) (h : codec.decodeInto slots c m = .ok m') : inv m' := by
  induction hn : c.size using Nat.strongRecOn generalizing c m with
  | _ n ih =>
    subst hn
    by_cases hbytes : c.bytes = []
    · rw [decodeInto_nil codec _ m hbytes] at h
      cases h
      exact hm
    · obtain ⟨occurrence, rest, next, hread, henter, hrest⟩ := exists_step_of_decodeInto hbytes h
      obtain ⟨hmoved, hshorter⟩ := readRecord_moved hread
      refine ih rest.size hmoved.size_lt ?_
        (hstep (reads_of_readRecord hread) hshorter hm henter) hrest rfl
      intro occurrence m next hread hshort
      refine hstep hread ?_
      cases occurrence with
      | body slot nested content => exact Nat.lt_trans hshort hmoved.size_lt
      | _ => trivial

theorem keptBy (hmembers : codec.SingleMembers)
    (hnumbers : ∀ decl ∈ codec.messages, decl.DistinctNumbers) (c : Cursor) : KeptBy codec c := by
  induction hn : c.size using Nat.strongRecOn generalizing c with
  | _ n ih =>
    subst hn
    have hbody {occurrence : Occurrence} (hshorter : occurrence.Shorter c) :
        occurrence.BodyKept codec := by
      rintro slot nested content rfl
      exact ih content.size hshorter content rfl
    constructor
    · intro decl m m' hdecl hm h
      refine inv_of_decodeInto (fun hread hshorter hm henter => ?_) hm h
      exact hm.enter hmembers hdecl (hnumbers decl hdecl) hread (hbody hshorter) henter
    · intro path key value m m' hm h
      refine inv_of_decodeInto (fun hread hshorter hm henter => ?_) hm h
      exact EntryWithin.enter hmembers hm hread (hbody hshorter) henter

/-- A club and a person take turns as the owner of a tree, with a record that nobody knows and a
branch that has had two owners in between. -/
def ownersInTurn : List UInt8 :=
  [40, 5, 34, 1, 120, 72, 1, 18, 5, 34, 1, 121, 40, 7, 40, 6]

/-- A tree and its branch that belong to clubs. -/
def clubTree : Message :=
  ⟨"grove.Tree",
    [("branches", .list [.message ⟨"grove.Tree", [("branches", .list []), ("club", .int64 7),
        ("marks", .map []), ("treeHeight", .double .zero)]⟩]),
      ("club", .int64 6), ("marks", .map []), ("treeHeight", .double .zero)]⟩

end Codec
end ProtoStub
