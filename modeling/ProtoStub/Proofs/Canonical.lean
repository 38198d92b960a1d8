import ProtoStub.Proofs.Records

/-!
# Messages that were read are canonical

Whatever bytes a message is read from, it conforms to its type: enums go by their first names,
keys of maps by their own texts, every field with a default is there, and of every oneof there
is at most one member. The order of the records, records that repeat and records that nobody
knows make no difference to this.

One step enters one record into a message. What a step needs to keep an invariant is said once
for any slots (`Keeps`), for the fields of a message as well as for the two parts of a map entry;
`Keeps.decodeInto` goes from steps to runs.
-/

namespace ProtoStub.Codec

open Wire

/-- What is known of a message that was read. -/
def asRead (codec : Codec) : Discipline :=
  canonical fun decl m => OneOfEach decl m ∧ Complete codec decl m

variable {codec : Codec}

/-! ## New messages -/

theorem holds_of_defaultOf {field : Field} (hformed : field.Formed)
    (hindexed : codec.Indexed field.contentKind) {v : Value}
    (hv : codec.defaultOf field = some v) {level : MessageDecl → Message → Prop}
    {nested : MessageDecl → Message → Prop} : Holds codec (canonical level) nested field v := by
  cases field with
  | map info key value =>
    rw [defaultOf_map hformed] at hv
    cases hv
    exact .map KeyMap.sorted_nil (fun p hp => absurd hp List.not_mem_nil) fun p hp =>
      absurd hp List.not_mem_nil
  | plain info =>
    by_cases hrep : info.repeated = true
    · rw [defaultOf_list hformed hrep] at hv
      cases hv
      exact .list hrep fun w hw => absurd hw List.not_mem_nil
    · rw [Bool.not_eq_true] at hrep
      by_cases himplicit : (Field.plain info).implicitPresence = true
      · obtain ⟨w, hw, hfits⟩ := defaultValue_implicit hformed hindexed himplicit
        rw [defaultOf_eq hw] at hv
        cases hv
        exact .single hrep (.scalar hfits)
      · rw [Bool.not_eq_true] at himplicit
        rw [defaultOf_explicit hformed hrep himplicit] at hv
        cases hv

/-- The new message of a type conforms to it at every level that it meets. -/
theorem conformsTo_fresh_of_level {decl : MessageDecl}
    (hformed : ∀ field ∈ decl.fields, field.Formed) (hnames : decl.DistinctProperties)
    (hindexed : ∀ field ∈ decl.fields, codec.Indexed field.contentKind)
    {level : MessageDecl → Message → Prop} (hlevel : level decl (codec.fresh decl)) :
    ConformsTo codec (canonical level) decl (codec.fresh decl) := by
  refine .intro (typeName_fresh codec decl) (sorted_fresh codec decl) hlevel ?_ ?_
  · intro name v hv
    by_contra hname
    rw [get?_fresh_of_forall_ne fun field hf heq => hname ⟨field, hf, heq⟩] at hv
    cases hv
  · intro field hf v hv
    rw [get?_fresh hnames hf] at hv
    exact holds_of_defaultOf (hformed field hf) (hindexed field hf) hv

theorem conformsTo_fresh (hsound : codec.Sound) {decl : MessageDecl}
    (hdecl : decl ∈ codec.messages) :
    ConformsTo codec codec.asRead decl (codec.fresh decl) := by
  have hnames := hsound.properties decl hdecl
  refine conformsTo_fresh_of_level (hsound.formed decl hdecl) hnames (hsound.indexed decl hdecl)
    ⟨?_, ?_⟩
  · intro f hf g _ hmember _ hpresent _
    rw [get?_fresh hnames hf, defaultOf_of_oneof (hsound.formed decl hdecl f hf)
      (hsound.oneofs decl hdecl f hf hmember) hmember] at hpresent
    cases hpresent
  · intro field hf hdefault
    rwa [get?_fresh hnames hf]

/-! ## Storing a property -/

theorem get?_foldl_unset (m : Message) (names : List String) (name : String) :
    (names.foldl Message.unset m).get? name = if name ∈ names then none else m.get? name := by
  induction names generalizing m with
  | nil => rfl
  | cons first rest ih =>
    rw [List.foldl_cons, ih, Message.get?_unset]
    by_cases hrest : name ∈ rest
    · rw [if_pos hrest, if_pos (List.mem_cons_of_mem _ hrest)]
    · rw [if_neg hrest]
      by_cases hfirst : first = name
      · rw [if_pos hfirst, if_pos (hfirst ▸ List.mem_cons_self)]
      · rw [if_neg hfirst, if_neg fun hmem => (List.mem_cons.1 hmem).elim
          (fun heq => hfirst heq.symm) hrest]

theorem Slot.get?_store (slot : Slot) (m : Message) (v : Value) (name : String) :
    (slot.store m (some v)).get? name =
      if name ∈ slot.rivals then none else if slot.name = name then some v else m.get? name := by
  rw [Slot.store, get?_foldl_unset]
  congr 1
  exact m.get?_set slot.name v name

theorem Slot.typeName_store (slot : Slot) (m : Message) (value : Option Value) :
    (slot.store m value).typeName = m.typeName := by
  rw [Slot.store]
  generalize hm : m.update slot.name value = m'
  have htype : m'.typeName = m.typeName := by cases value <;> exact hm ▸ rfl
  rw [← htype]
  clear hm htype
  induction slot.rivals generalizing m' with
  | nil => rfl
  | cons name rest ih => exact ih (m'.unset name)

theorem Slot.sorted_store (slot : Slot) {m : Message} (h : m.Sorted) (value : Option Value) :
    (slot.store m value).Sorted := by
  rw [Slot.store]
  have hset : (m.update slot.name value).Sorted := h.update _ _
  generalize m.update slot.name value = m' at hset
  induction slot.rivals generalizing m' with
  | nil => exact hset
  | cons name rest ih => exact ih (m'.unset name) (hset.unset name)

/-- The properties that the slot of a field unsets are those of the other members of its
oneof. -/
theorem mem_rivals {decl : MessageDecl} (hnames : decl.DistinctProperties) {field g : Field}
    (hg : g ∈ decl.fields) :
    g.info.name ∈ (slotOf decl field).rivals ↔
      field.info.oneof.isSome = true ∧ g.info.oneof = field.info.oneof ∧
        g.info.number ≠ field.info.number := by
  constructor
  · intro hmem
    obtain ⟨g', hg', heq⟩ := List.mem_map.1 hmem
    obtain ⟨hmem', hrest⟩ := MessageDecl.mem_siblings.1 hg'
    rwa [List.inj_on_of_nodup_map hnames hmem' hg heq] at hrest
  · intro hrest
    exact List.mem_map.2 ⟨g, MessageDecl.mem_siblings.2 ⟨hg, hrest⟩, rfl⟩

/-- A message still conforms after a field is given something that it can hold. -/
theorem ConformsTo.store (hsound : codec.Sound) {decl : MessageDecl}
    (hdecl : decl ∈ codec.messages) {m : Message} (hm : ConformsTo codec codec.asRead decl m)
    {field : Field} (hf : field ∈ decl.fields) {v : Value}
    (hv : Holds codec codec.asRead (ConformsTo codec codec.asRead) field v) :
    ConformsTo codec codec.asRead decl ((slotOf decl field).store m (some v)) := by
  have hnames := hsound.properties decl hdecl
  obtain ⟨hone, hcomplete⟩ := hm.level
  -- A property after the step is either the stored one or one that was there before.
  have hget : ∀ g ∈ decl.fields, ∀ w,
      ((slotOf decl field).store m (some v)).get? g.info.name = some w →
        g.info.name ∉ (slotOf decl field).rivals ∧
          ((g = field ∧ w = v) ∨ (g ≠ field ∧ m.get? g.info.name = some w)) := by
    intro g hg w hw
    rw [Slot.get?_store] at hw
    split at hw
    · cases hw
    next hrival =>
      refine ⟨hrival, ?_⟩
      split at hw
      next heq =>
        cases hw
        exact .inl ⟨List.inj_on_of_nodup_map hnames hg hf heq.symm, rfl⟩
      next hne => exact .inr ⟨fun heq => hne (heq ▸ rfl), hw⟩
  refine .intro ?_ (Slot.sorted_store _ hm.sorted _) ⟨?_, ?_⟩ ?_ ?_
  · rw [Slot.typeName_store, hm.typeName]
  · intro f hf' g hg hmember honeof hfpresent hgpresent
    obtain ⟨x, hx⟩ := Option.isSome_iff_exists.1 hfpresent
    obtain ⟨y, hy⟩ := Option.isSome_iff_exists.1 hgpresent
    obtain ⟨hfrival, hfx⟩ := hget f hf' x hx
    obtain ⟨hgrival, hgy⟩ := hget g hg y hy
    rw [mem_rivals hnames hf'] at hfrival
    rw [mem_rivals hnames hg] at hgrival
    have hsame : ∀ f' ∈ decl.fields, f'.info.number = field.info.number → f' = field :=
      fun f' hf' heq => List.inj_on_of_nodup_map (hsound.numbers decl hdecl) hf' hf heq
    rcases hfx with ⟨rfl, -⟩ | ⟨hfne, hfx⟩
    · by_contra hne
      exact hgrival ⟨hmember, honeof.symm, fun heq => hne (hsame g hg heq).symm⟩
    · rcases hgy with ⟨rfl, -⟩ | ⟨-, hgy⟩
      · exact absurd ⟨honeof ▸ hmember, honeof, fun heq => hfne (hsame f hf' heq)⟩ hfrival
      · exact hone f hf' g hg hmember honeof (by rw [hfx]; rfl) (by rw [hgy]; rfl)
  · intro g hg hdefault
    rw [Slot.get?_store, if_neg]
    · split
      · rfl
      · exact hcomplete g hg hdefault
    · -- A member of a oneof has no default.
      intro hrival
      obtain ⟨hmember, honeof, -⟩ := (mem_rivals hnames hg).1 hrival
      rw [← honeof] at hmember
      rw [defaultOf_of_oneof (hsound.formed decl hdecl g hg)
        (hsound.oneofs decl hdecl g hg hmember) hmember] at hdefault
      cases hdefault
  · intro name w hw
    rw [Slot.get?_store] at hw
    split at hw
    · cases hw
    split at hw
    next heq => exact ⟨field, hf, heq⟩
    · exact hm.declared hw
  · intro g hg w hw
    rcases (hget g hg w hw).2 with ⟨rfl, rfl⟩ | ⟨-, hw⟩
    · exact hv
    · exact hm.holds hg hw

/-! ## Records -/

theorem fits_of_readPacked {kind : FieldKind} {path : String} {c : Cursor} {values : List Value}
    (h : codec.readPacked kind path c = .ok values) :
    ∀ v ∈ values, Fits codec EnumDecl.Canonical kind v := by
  induction hn : c.size using Nat.strongRecOn generalizing c values with
  | _ n ih =>
    subst hn
    rw [readPacked] at h
    split at h
    · cases h
      exact fun v hv => absurd hv List.not_mem_nil
    · split at h
      · cases h
      next v rest hread =>
        obtain ⟨more, hmore, rfl⟩ := exists_of_map_eq_ok h
        have hlt := (readScalar_moved hread).size_lt
        rw [List.forall_mem_cons]
        exact ⟨fits_of_readScalar hread, ih rest.size hlt hmore rfl⟩

/-- What a record can be. -/
inductive Reads (codec : Codec) (slots : Slots) : Occurrence → Prop
  | unknown : Reads codec slots .unknown
  | scalars {number : UInt32} {slot : Slot} {kind : FieldKind} {repeated : Bool}
      {values : List Value} (slot_eq : slots number = some slot)
      (form : slot.form = .scalar kind repeated)
      (fits : ∀ v ∈ values, Fits codec EnumDecl.Canonical kind v)
      (count : repeated = true ∨ ∃ v, values = [v]) :
      Reads codec slots (.scalars slot repeated values)
  | body {number : UInt32} {slot : Slot} {nested : Nested} {content : Cursor}
      (slot_eq : slots number = some slot) (form : slot.form = .nested nested) :
      Reads codec slots (.body slot nested content)

theorem reads_of_readRecord {slots : Slots} {c rest : Cursor} {occurrence : Occurrence}
    (h : codec.readRecord slots c = .ok (occurrence, rest)) : Reads codec slots occurrence := by
  unfold readRecord at h
  split at h
  · cases h
  split at h
  · cases h
  split at h
  · obtain ⟨after, -, hr⟩ := exists_of_map_eq_ok h
    cases hr
    exact .unknown
  next slot hslot =>
    unfold readSlot at h
    split at h
    next nested hform =>
      split at h
      · obtain ⟨r, -, hr⟩ := exists_of_map_eq_ok h
        cases hr
        exact .body hslot hform
      · cases h
    next kind repeated hform =>
      split at h
      next hpacked =>
        split at h
        · cases h
        · obtain ⟨values, hvalues, hr⟩ := exists_of_map_eq_ok h
          cases hr
          rw [Bool.and_eq_true, Bool.and_eq_true] at hpacked
          exact .scalars hslot hform (fits_of_readPacked hvalues) (.inl hpacked.1.1)
      · split at h
        · obtain ⟨r, hread, hr⟩ := exists_of_map_eq_ok h
          cases hr
          refine .scalars hslot hform (fun v hv => ?_) (.inr ⟨r.1, rfl⟩)
          rw [List.mem_singleton.1 hv]
          exact fits_of_readScalar hread
        · cases h

/-! ## Steps -/

/-- The two parts of a map entry. -/
def EntryOf (codec : Codec) (key value : FieldInfo) (entry : Message) : Prop :=
  (∃ k, entry.get? keyName = some k ∧ Fits codec EnumDecl.Canonical key.kind k) ∧
    ∃ v, entry.get? valueName = some v ∧
      Conforms codec codec.asRead (ConformsTo codec codec.asRead) value.kind v

/-- Every record that the slots know keeps an invariant. -/
structure Keeps (codec : Codec) (slots : Slots) (inv : Message → Prop) : Prop where
  /-- Values of the right kind can be stored. -/
  scalars : ∀ {number slot kind repeated values m}, slots number = some slot →
    slot.form = .scalar kind repeated → (∀ v ∈ values, Fits codec EnumDecl.Canonical kind v) →
    (repeated = true ∨ ∃ v, values = [v]) → inv m →
    inv (slot.store m (absorb repeated (m.get? slot.name) values))
  /-- Messages of the right type can be stored. -/
  message : ∀ {number slot target repeated decl m done}, slots number = some slot →
    slot.form = .nested (.message target repeated) → codec.message target.fqName = .ok decl →
    inv m → ConformsTo codec codec.asRead decl done →
    inv (slot.store m (some ((Nested.message target repeated).close (m.get? slot.name) done)))
  /-- A message that is there already is of the right type. -/
  held : ∀ {number slot target decl m x}, slots number = some slot →
    slot.form = .nested (.message target false) → codec.message target.fqName = .ok decl →
    inv m → m.get? slot.name = some (.message x) → ConformsTo codec codec.asRead decl x
  /-- Entries can be stored, and there are entries only of maps. -/
  entry : ∀ {number slot key value m done}, slots number = some slot →
    slot.form = .nested (.entry key value) → inv m → EntryOf codec key value done →
    inv (slot.store m (some ((Nested.entry key value).close (m.get? slot.name) done)))
  map : ∀ {number slot key value}, slots number = some slot →
    slot.form = .nested (.entry key value) → codec.Indexed value.kind ∧
      ∃ info keyField valueField, (Field.map info keyField valueField).Formed ∧
        keyField.info = key ∧ valueField.info = value

theorem exists_field_of_slotsOf {decl : MessageDecl} {number : UInt32} {slot : Slot}
    (h : slotsOf decl number = some slot) : ∃ field ∈ decl.fields, slot = slotOf decl field := by
  obtain ⟨field, hfield, rfl⟩ := Option.map_eq_some_iff.1 h
  exact ⟨field, List.mem_of_find?_eq_some hfield, rfl⟩

theorem Form.ofKind_eq_scalar {kind kind' : FieldKind} {repeated repeated' : Bool}
    (h : Form.ofKind kind repeated = .scalar kind' repeated') :
    kind' = kind ∧ repeated' = repeated := by
  cases kind <;> cases h <;> exact ⟨rfl, rfl⟩

theorem Form.ofKind_eq_nested {kind : FieldKind} {repeated : Bool} {nested : Nested}
    (h : Form.ofKind kind repeated = .nested nested) :
    ∃ target, kind = .message target ∧ nested = .message target repeated := by
  cases kind <;> cases h
  exact ⟨_, rfl, rfl⟩

/-- A list that was read is there from the start. -/
theorem ConformsTo.exists_list (hsound : codec.Sound) {decl : MessageDecl}
    (hdecl : decl ∈ codec.messages) {m : Message} (hm : ConformsTo codec codec.asRead decl m)
    {info : FieldInfo} (hf : .plain info ∈ decl.fields) (hrep : info.repeated = true) :
    ∃ items, m.get? info.name = some (.list items) ∧
      ∀ v ∈ items, Conforms codec codec.asRead (ConformsTo codec codec.asRead) info.kind v := by
  have hdefault : codec.defaultOf (.plain info) = some (.list []) :=
    defaultOf_list (hsound.formed decl hdecl _ hf) hrep
  obtain ⟨v, hv⟩ := Option.isSome_iff_exists.1 (hm.level.2 _ hf (by rw [hdefault]; rfl))
  cases hm.holds hf hv with
  | single hsingle => rw [hrep] at hsingle; cases hsingle
  | list _ hvs => exact ⟨_, hv, hvs⟩

/-- A map that was read is there from the start. -/
theorem ConformsTo.exists_map (hsound : codec.Sound) {decl : MessageDecl}
    (hdecl : decl ∈ codec.messages) {m : Message} (hm : ConformsTo codec codec.asRead decl m)
    {info : FieldInfo} {key value : Field} (hf : .map info key value ∈ decl.fields) :
    ∃ entries, m.get? info.name = some (.map entries) ∧ KeyMap.Sorted entries ∧
      (∀ p ∈ entries, IsKeyText key.info.kind p.1) ∧
      ∀ p ∈ entries, Conforms codec codec.asRead (ConformsTo codec codec.asRead)
        value.info.kind p.2 := by
  have hdefault : codec.defaultOf (.map info key value) = some (.map []) :=
    defaultOf_map (hsound.formed decl hdecl _ hf)
  obtain ⟨v, hv⟩ := Option.isSome_iff_exists.1 (hm.level.2 _ hf (by rw [hdefault]; rfl))
  cases hm.holds hf hv with
  | map hsorted hkeys hvs => exact ⟨_, hv, hsorted, hkeys, hvs⟩

/-- A message still conforms after a field has received values. -/
theorem ConformsTo.receive (hsound : codec.Sound) {decl : MessageDecl}
    (hdecl : decl ∈ codec.messages) {m : Message} (hm : ConformsTo codec codec.asRead decl m)
    {info : FieldInfo} (hf : .plain info ∈ decl.fields) {values : List Value}
    (hvalues : ∀ v ∈ values,
      Conforms codec codec.asRead (ConformsTo codec codec.asRead) info.kind v)
    (hcount : info.repeated = true ∨ ∃ v, values = [v]) :
    ConformsTo codec codec.asRead decl ((slotOf decl (.plain info)).store m
      (absorb info.repeated (m.get? info.name) values)) := by
  cases hrep : info.repeated with
  | true =>
    obtain ⟨items, hitems, hvs⟩ := hm.exists_list hsound hdecl hf hrep
    have habsorb : absorb true (some (.list items)) values = some (.list (items ++ values)) := by
      cases values with
      | nil => rw [List.append_nil]; rfl
      | cons v rest => rfl
    rw [hitems, habsorb]
    refine hm.store hsound hdecl hf (.list hrep fun v hv => ?_)
    rcases List.mem_append.1 hv with hv | hv
    · exact hvs v hv
    · exact hvalues v hv
  | false =>
    rcases hcount with hrep' | ⟨v, rfl⟩
    · rw [hrep] at hrep'
      cases hrep'
    · exact hm.store hsound hdecl hf (.single hrep (hvalues v List.mem_cons_self))

/-- A message still conforms after a map has received an entry. -/
theorem ConformsTo.receiveEntry (hsound : codec.Sound) {decl : MessageDecl}
    (hdecl : decl ∈ codec.messages) {m : Message} (hm : ConformsTo codec codec.asRead decl m)
    {info : FieldInfo} {key value : Field} (hf : .map info key value ∈ decl.fields)
    {entry : Message} (hentry : EntryOf codec key.info value.info entry) :
    ConformsTo codec codec.asRead decl ((slotOf decl (.map info key value)).store m
      (some ((Nested.entry key.info value.info).close (m.get? info.name) entry))) := by
  obtain ⟨⟨k, hk, hkfits⟩, v, hv, hvconforms⟩ := hentry
  obtain ⟨entries, hentries, hsorted, hkeys, hvs⟩ := hm.exists_map hsound hdecl hf
  have hkey : IsKeyText key.info.kind (textOfKey k) := by
    cases hsound.formed decl hdecl _ hf with
    | map _ _ _ _ hmapKey _ _ _ _ =>
      rw [IsKeyText, keyOfText?_textOfKey hmapKey hkfits]
      rfl
  simp only [Nested.close, hentries, hk, hv, Option.map_some, Option.getD_some, Value.putEntry]
  refine hm.store hsound hdecl hf (.map (hsorted.insert _ _) ?_ ?_)
  · intro p hp
    rcases KeyMap.mem_insert hp with rfl | hp
    · exact hkey
    · exact hkeys p hp
  · intro p hp
    rcases KeyMap.mem_insert hp with rfl | hp
    · exact hvconforms
    · exact hvs p hp

theorem Nested.close_message (target : TypeRef) (repeated : Bool) (old : Option Value)
    (m : Message) :
    some ((Nested.message target repeated).close old m) = absorb repeated old [.message m] := by
  rw [absorb_singleton]
  cases repeated <;> rfl

/-- Every record of a field keeps a message conforming. -/
theorem keeps_slotsOf (hsound : codec.Sound) {decl : MessageDecl}
    (hdecl : decl ∈ codec.messages) :
    Keeps codec (slotsOf decl) (ConformsTo codec codec.asRead decl) where
  scalars := by
    intro number slot kind repeated values m hslot hform hfits hcount hm
    obtain ⟨field, hf, rfl⟩ := exists_field_of_slotsOf hslot
    cases field with
    | map info key value => cases hform
    | plain info =>
      obtain ⟨rfl, rfl⟩ := Form.ofKind_eq_scalar hform
      exact hm.receive hsound hdecl hf (fun v hv => .scalar (hfits v hv)) hcount
  message := by
    intro number slot target repeated d m done hslot hform hd hm hdone
    obtain ⟨field, hf, rfl⟩ := exists_field_of_slotsOf hslot
    cases field with
    | map info key value => cases hform
    | plain info =>
      obtain ⟨target', hkind, hnested⟩ := Form.ofKind_eq_nested hform
      cases hnested
      rw [Nested.close_message]
      refine hm.receive hsound hdecl hf (fun v hv => ?_) (.inr ⟨_, rfl⟩)
      rw [List.mem_singleton.1 hv, hkind]
      exact .message hd hdone
  held := by
    intro number slot target d m x hslot hform hd hm hx
    obtain ⟨field, hf, rfl⟩ := exists_field_of_slotsOf hslot
    cases field with
    | map info key value => cases hform
    | plain info =>
      obtain ⟨target', hkind, hnested⟩ := Form.ofKind_eq_nested hform
      obtain ⟨rfl, -⟩ := Nested.message.inj hnested
      cases hm.holds hf hx with
      | single _ hv =>
        rw [hkind] at hv
        exact hv.nested hd
  entry := by
    intro number slot key value m done hslot hform hm hdone
    obtain ⟨field, hf, rfl⟩ := exists_field_of_slotsOf hslot
    cases field with
    | plain info =>
      obtain ⟨target', -, hnested⟩ := Form.ofKind_eq_nested hform
      cases hnested
    | map info keyField valueField =>
      cases hform
      exact hm.receiveEntry hsound hdecl hf hdone
  map := by
    intro number slot key value hslot hform
    obtain ⟨field, hf, rfl⟩ := exists_field_of_slotsOf hslot
    cases field with
    | plain info =>
      obtain ⟨target', -, hnested⟩ := Form.ofKind_eq_nested hform
      cases hnested
    | map info keyField valueField =>
      cases hform
      exact ⟨hsound.indexed decl hdecl _ hf, info, keyField, valueField,
        hsound.formed decl hdecl _ hf, rfl, rfl⟩

/-- The slots of an entry hold a key and a value. -/
theorem entrySlots_eq_some {path : String} {key value : FieldInfo} {number : UInt32} {slot : Slot}
    (h : entrySlots path key value number = some slot) :
    slot = ⟨keyName, path, .ofKind key.kind false, []⟩ ∨
      slot = ⟨valueName, path, .ofKind value.kind false, []⟩ := by
  unfold entrySlots at h
  split at h
  · cases h
    exact .inl rfl
  split at h
  · cases h
    exact .inr rfl
  · cases h

theorem EntryOf.setKey {key value : FieldInfo} {entry : Message}
    (h : EntryOf codec key value entry) {k : Value}
    (hk : Fits codec EnumDecl.Canonical key.kind k) :
    EntryOf codec key value (entry.set keyName k) := by
  obtain ⟨-, v, hv, hconforms⟩ := h
  have hne : keyName ≠ valueName := by decide
  refine ⟨⟨k, by rw [Message.get?_set, if_pos rfl], hk⟩, v, ?_, hconforms⟩
  rw [Message.get?_set, if_neg hne, hv]

theorem EntryOf.setValue {key value : FieldInfo} {entry : Message}
    (h : EntryOf codec key value entry) {v : Value}
    (hv : Conforms codec codec.asRead (ConformsTo codec codec.asRead) value.kind v) :
    EntryOf codec key value (entry.set valueName v) := by
  obtain ⟨⟨k, hk, hfits⟩, -⟩ := h
  have hne : valueName ≠ keyName := by decide
  refine ⟨⟨k, ?_, hfits⟩, v, by rw [Message.get?_set, if_pos rfl], hv⟩
  rw [Message.get?_set, if_neg hne, hk]

/-- Every record of an entry keeps its key and its value. -/
theorem keeps_entrySlots {path : String} {key value : FieldInfo}
    (hkey : key.kind.isMapKey = true) :
    Keeps codec (entrySlots path key value) (EntryOf codec key value) where
  scalars := by
    intro number slot kind repeated values m hslot hform hfits hcount hm
    rcases entrySlots_eq_some hslot with rfl | rfl
    · obtain ⟨rfl, rfl⟩ := Form.ofKind_eq_scalar hform
      obtain ⟨v, rfl⟩ := hcount.resolve_left Bool.false_ne_true
      exact hm.setKey (hfits v List.mem_cons_self)
    · obtain ⟨rfl, rfl⟩ := Form.ofKind_eq_scalar hform
      obtain ⟨v, rfl⟩ := hcount.resolve_left Bool.false_ne_true
      exact hm.setValue (.scalar (hfits v List.mem_cons_self))
  message := by
    intro number slot target repeated d m done hslot hform hd hm hdone
    rcases entrySlots_eq_some hslot with rfl | rfl
    · obtain ⟨target', hkind, -⟩ := Form.ofKind_eq_nested hform
      rw [hkind] at hkey
      cases hkey
    · obtain ⟨target', hkind, hnested⟩ := Form.ofKind_eq_nested hform
      cases hnested
      refine hm.setValue ?_
      rw [hkind]
      exact .message hd hdone
  held := by
    intro number slot target d m x hslot hform hd hm hx
    rcases entrySlots_eq_some hslot with rfl | rfl
    · obtain ⟨target', hkind, -⟩ := Form.ofKind_eq_nested hform
      rw [hkind] at hkey
      cases hkey
    · obtain ⟨target', hkind, hnested⟩ := Form.ofKind_eq_nested hform
      cases hnested
      obtain ⟨-, v, hv, hconforms⟩ := hm
      rw [hv] at hx
      cases hx
      rw [hkind] at hconforms
      exact hconforms.nested hd
  entry := by
    intro number slot key' value' m done hslot hform
    rcases entrySlots_eq_some hslot with rfl | rfl <;>
    · obtain ⟨target', -, hnested⟩ := Form.ofKind_eq_nested hform
      cases hnested
  map := by
    intro number slot key' value' hslot hform
    rcases entrySlots_eq_some hslot with rfl | rfl <;>
    · obtain ⟨target', -, hnested⟩ := Form.ofKind_eq_nested hform
      cases hnested

/-! ## Runs -/

/-- A message is read into a new one or into the one that is there. -/
theorem exists_of_openNested (hsound : codec.Sound) {path : String} {target : TypeRef}
    {repeated : Bool} {old : Option Value} {inner : Slots} {start : Message}
    (h : codec.openNested path (.message target repeated) old = .ok (inner, start)) :
    ∃ decl, codec.message target.fqName = .ok decl ∧ inner = slotsOf decl ∧
      (start = codec.fresh decl ∨ repeated = false ∧ old = some (.message start)) := by
  simp only [openNested] at h
  split at h
  · cases h
  next decl hdecl =>
    refine ⟨decl, hdecl, ?_⟩
    split at h
    · cases h
      exact ⟨rfl, .inr ⟨rfl, rfl⟩⟩
    · rw [newMessage_eq hsound (mem_of_message hdecl)] at h
      cases h
      exact ⟨rfl, .inl rfl⟩

/-- A run over some bytes keeps whatever every record keeps. -/
def KeptOver (codec : Codec) (c : Cursor) : Prop :=
  ∀ ⦃slots : Slots⦄ ⦃inv : Message → Prop⦄ ⦃m m' : Message⦄, Keeps codec slots inv → inv m →
    codec.decodeInto slots c m = .ok m' → inv m'

section

variable {slots : Slots} {inv : Message → Prop} {number : UInt32} {slot : Slot}
  {content : Cursor} {m next : Message}

theorem Keeps.enter_message (hsound : codec.Sound) (hkeeps : Keeps codec slots inv)
    {target : TypeRef} {repeated : Bool} (hslot : slots number = some slot)
    (hform : slot.form = .nested (.message target repeated)) (hcontent : KeptOver codec content)
    (hm : inv m) (h : codec.enter m (.body slot (.message target repeated) content) = .ok next) :
    inv next := by
  obtain ⟨inner, start, done, hopen, hdone, rfl⟩ := exists_of_enter_body h
  obtain ⟨decl, hdecl, rfl, hstart⟩ := exists_of_openNested hsound hopen
  have hmem := mem_of_message hdecl
  have hconforms : ConformsTo codec codec.asRead decl start := by
    rcases hstart with rfl | ⟨rfl, hold⟩
    · exact conformsTo_fresh hsound hmem
    · exact hkeeps.held hslot hform hdecl hm hold
  refine hkeeps.message hslot hform hdecl hm ?_
  exact hcontent (keeps_slotsOf hsound hmem) hconforms hdone

theorem Keeps.enter_entry (hsound : codec.Sound) (hkeeps : Keeps codec slots inv)
    {key value : FieldInfo} (hslot : slots number = some slot)
    (hform : slot.form = .nested (.entry key value)) (hcontent : KeptOver codec content)
    (hm : inv m) (h : codec.enter m (.body slot (.entry key value) content) = .ok next) :
    inv next := by
  obtain ⟨inner, start, done, hopen, hdone, rfl⟩ := exists_of_enter_body h
  obtain ⟨hindexed, info, keyField, valueField, hformed, rfl, rfl⟩ := hkeeps.map hslot hform
  obtain ⟨k, v, hentry, hk, hv⟩ := openNested_entry hsound hformed hindexed
    (fun decl m => OneOfEach decl m ∧ Complete codec decl m) slot.path (m.get? slot.name)
  rw [hentry] at hopen
  cases hopen
  have hkey : keyField.info.kind.isMapKey = true := by
    cases hformed with | map _ _ _ _ hmapKey _ _ _ _ => exact hmapKey
  have hstart : EntryOf codec keyField.info valueField.info
      ⟨"", [(keyName, k), (valueName, v)]⟩ := by
    refine ⟨⟨k, rfl, hk⟩, v, rfl, hv.mono (fun _ _ hx => hx) ?_⟩
    rintro target decl x - hd rfl
    exact conformsTo_fresh hsound (mem_of_message hd)
  refine hkeeps.entry hslot hform hm ?_
  exact hcontent (keeps_entrySlots hkey) hstart hdone

/-- A step keeps what every record keeps, if the run over its body does. -/
theorem Keeps.enter (hsound : codec.Sound) (hkeeps : Keeps codec slots inv)
    {occurrence : Occurrence} (hreads : Reads codec slots occurrence)
    (hcontent : ∀ slot nested content, occurrence = .body slot nested content →
      KeptOver codec content)
    (hm : inv m) (h : codec.enter m occurrence = .ok next) : inv next := by
  cases hreads with
  | unknown =>
    cases h
    exact hm
  | scalars hslot hform hfits hcount =>
    cases h
    exact hkeeps.scalars hslot hform hfits hcount hm
  | @body number slot nested content hslot hform =>
    have hkept := hcontent slot nested content rfl
    cases nested with
    | message target repeated => exact hkeeps.enter_message hsound hslot hform hkept hm h
    | entry key value => exact hkeeps.enter_entry hsound hslot hform hkept hm h

end

/-- A run keeps what each of its steps keeps. -/
theorem keptOver (hsound : codec.Sound) (c : Cursor) : KeptOver codec c := by
  -- Both the rest of a run and the bodies inside it are shorter than the run.
  induction hn : c.size using Nat.strongRecOn generalizing c with
  | _ n ih =>
    subst hn
    intro slots inv m m' hkeeps hm h
    by_cases hb : c.bytes = []
    · rw [decodeInto_nil codec slots m hb] at h
      cases h
      exact hm
    · obtain ⟨occurrence, rest, next, hread, henter, hrest⟩ := exists_step_of_decodeInto hb h
      obtain ⟨hmoved, hshort⟩ := readRecord_moved hread
      refine ih rest.size hmoved.size_lt rest rfl hkeeps ?_ hrest
      refine hkeeps.enter hsound (reads_of_readRecord hread) ?_ hm henter
      rintro slot nested content rfl
      exact ih content.size hshort content rfl

/-- A message that was read conforms to its type. -/
theorem conformsTo_of_decode (hsound : codec.Sound) {typeName : String} {bytes : List UInt8}
    {m : Message} (h : codec.decode typeName bytes = .ok m) :
    ∃ decl, codec.message typeName = .ok decl ∧ ConformsTo codec codec.asRead decl m := by
  simp only [decode] at h
  split at h
  · cases h
  next decl hdecl =>
    have hmem := mem_of_message hdecl
    simp only [newMessage_eq hsound hmem] at h
    exact ⟨decl, hdecl,
      keptOver hsound _ (keeps_slotsOf hsound hmem) (conformsTo_fresh hsound hmem) h⟩

end ProtoStub.Codec
