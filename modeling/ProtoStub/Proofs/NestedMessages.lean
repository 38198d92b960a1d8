import ProtoStub.Proofs.Writability

/-!
# Messages inside messages

A message holds others in its fields, as the items of its lists and as the values of its maps,
and these hold more. `Contains` goes down from a message of a type to a message inside it and the
type that the fields on the way give to that one. A predicate that is true of a message and of all
messages inside it is true `Throughout`; `throughout_iff` is the one step down that proofs by
induction on the bytes or on the document take.

A new message is `fresh` wherever it could be made, and there is nothing inside it.
-/

namespace ProtoStub

namespace Value

theorem mem_messages_of_asMessage? {v : Value} {x : Message} (h : v.asMessage? = some x) :
    x ∈ v.messages := by
  rw [asMessage?_eq_some] at h
  subst h
  exact List.mem_singleton_self x

/-- The messages of a list with one more item are the item and those that were there. -/
theorem mem_messages_pushItem {old : Option Value} {item : Value} {x : Message}
    (h : x ∈ (pushItem old item).messages) :
    item.asMessage? = some x ∨ ∃ v, old = some v ∧ x ∈ v.messages := by
  unfold pushItem at h
  split at h
  next items =>
    rw [messages, List.filterMap_append, List.mem_append] at h
    rcases h with h | h
    · exact .inr ⟨_, rfl, h⟩
    · exact .inl (by simpa using h)
  · exact .inl (by simpa [messages] using h)

/-- The messages of a map with one more entry are the value of the entry and those that were
there. -/
theorem mem_messages_putEntry {old : Option Value} {key : String} {value : Value} {x : Message}
    (h : x ∈ (putEntry old key value).messages) :
    value.asMessage? = some x ∨ ∃ v, old = some v ∧ x ∈ v.messages := by
  have hinsert : ∀ entries : KeyMap Value, x ∈ (Value.map (entries.insert key value)).messages →
      value.asMessage? = some x ∨ x ∈ (Value.map entries).messages := by
    intro entries hx
    obtain ⟨p, hp, hpx⟩ := List.mem_filterMap.1 hx
    rcases KeyMap.mem_insert hp with rfl | hp
    · exact .inl hpx
    · exact .inr (List.mem_filterMap.2 ⟨p, hp, hpx⟩)
  unfold putEntry at h
  split at h
  · exact (hinsert [] h).imp_right fun hx => absurd hx List.not_mem_nil
  next entries => exact (hinsert entries h).imp_right fun hx => ⟨_, rfl, hx⟩
  next other _ => exact .inr ⟨other, rfl, h⟩

end Value

namespace Codec

/-! ## Messages at any depth -/

/-- A message of a type contains itself and what the messages of its fields contain. -/
inductive Contains (codec : Codec) : MessageDecl → Message → MessageDecl → Message → Prop
  | self {decl : MessageDecl} {m : Message} : Contains codec decl m decl m
  | nested {decl inner part : MessageDecl} {m x y : Message} {field : Field} {v : Value}
      {target : TypeRef} (declared : field ∈ decl.fields)
      (value : m.get? field.info.name = some v) (message : x ∈ v.messages)
      (content : field.contentKind = .message target)
      (resolves : codec.message target.fqName = .ok inner)
      (contains : Contains codec inner x part y) : Contains codec decl m part y

/-- A predicate is true of a message and of all messages inside it. -/
def Throughout (codec : Codec) (P : MessageDecl → Message → Prop) (decl : MessageDecl)
    (m : Message) : Prop :=
  ∀ part x, Contains codec decl m part x → P part x

/-- A predicate is true throughout the messages of a value of a kind. -/
def Within (codec : Codec) (P : MessageDecl → Message → Prop) (kind : FieldKind) (v : Value) :
    Prop :=
  ∀ target inner, kind = .message target → codec.message target.fqName = .ok inner →
    ∀ x ∈ v.messages, Throughout codec P inner x

variable {codec : Codec} {P : MessageDecl → Message → Prop}

theorem throughout_iff {decl : MessageDecl} {m : Message} :
    Throughout codec P decl m ↔ P decl m ∧ ∀ field ∈ decl.fields, ∀ v,
      m.get? field.info.name = some v → Within codec P field.contentKind v := by
  constructor
  · intro h
    refine ⟨h decl m .self, fun field hf v hv target inner hkind hinner x hx part y hy => ?_⟩
    exact h part y (.nested hf hv hx hkind hinner hy)
  · rintro ⟨hself, hfields⟩ part y hy
    cases hy with
    | self => exact hself
    | nested hf hv hx hkind hinner hy => exact hfields _ hf _ hv _ _ hkind hinner _ hx part y hy

theorem within_of_ne {kind : FieldKind} (h : ∀ target, kind ≠ .message target) (v : Value) :
    Within codec P kind v :=
  fun target _ hkind => absurd hkind (h target)

theorem within_of_messages_eq_nil {v : Value} (h : v.messages = []) (kind : FieldKind) :
    Within codec P kind v := by
  intro target inner _ _ x hx
  rw [h] at hx
  cases hx

theorem within_message {target : TypeRef} {decl : MessageDecl} {m : Message}
    (hdecl : codec.message target.fqName = .ok decl) :
    Within codec P (.message target) (.message m) ↔ Throughout codec P decl m := by
  constructor
  · exact fun h => h target decl rfl hdecl m (List.mem_singleton_self m)
  · intro h target' inner hkind hinner x hx
    cases hkind
    cases hdecl.symm.trans hinner
    rw [List.mem_singleton.1 hx]
    exact h

theorem Within.pushItem {kind : FieldKind} {old : Option Value} {item : Value}
    (hold : ∀ v, old = some v → Within codec P kind v) (hitem : Within codec P kind item) :
    Within codec P kind (Value.pushItem old item) := by
  intro target inner hkind hinner x hx
  rcases Value.mem_messages_pushItem hx with hx | ⟨v, hv, hx⟩
  · exact hitem target inner hkind hinner x (Value.mem_messages_of_asMessage? hx)
  · exact hold v hv target inner hkind hinner x hx

theorem Within.putEntry {kind : FieldKind} {old : Option Value} {value : Value} (key : String)
    (hold : ∀ v, old = some v → Within codec P kind v) (hvalue : Within codec P kind value) :
    Within codec P kind (Value.putEntry old key value) := by
  intro target inner hkind hinner x hx
  rcases Value.mem_messages_putEntry hx with hx | ⟨v, hv, hx⟩
  · exact hvalue target inner hkind hinner x (Value.mem_messages_of_asMessage? hx)
  · exact hold v hv target inner hkind hinner x hx

/-! ## New messages -/

/-- The properties of every message are apart and a member of a oneof holds one value. -/
structure SingleMembers (codec : Codec) : Prop where
  formed : ∀ decl ∈ codec.messages, ∀ field ∈ decl.fields, field.Formed
  properties : ∀ decl ∈ codec.messages, decl.DistinctProperties
  oneofs : ∀ decl ∈ codec.messages, ∀ field ∈ decl.fields,
    field.info.oneof.isSome = true → field.isSingle = true

theorem Resolved.singleMembers (h : codec.Resolved)
    (hproperties : ∀ decl ∈ codec.messages, decl.DistinctProperties)
    (honeofs : ∀ decl ∈ codec.messages, ∀ field ∈ decl.fields,
      field.info.oneof.isSome = true → field.isSingle = true) : codec.SingleMembers := by
  cases h with | intro hbuild options =>
    exact ⟨fun decl hdecl => (formed_of_build hbuild options decl hdecl).fields, hproperties,
      honeofs⟩

theorem exists_of_setDefaults {fields : List Field} {m m' : Message}
    (h : codec.setDefaults fields m = .ok m') :
    ∀ field ∈ fields, codec.defaultValue field.info = .ok (codec.defaultOf field) := by
  induction fields generalizing m with
  | nil => exact fun field hf => absurd hf List.not_mem_nil
  | cons first rest ih =>
    cases hfirst : codec.defaultValue first.info with
    | error e =>
      simp only [setDefaults, hfirst] at h
      cases h
    | ok value =>
      simp only [setDefaults, hfirst] at h
      rw [List.forall_mem_cons, defaultOf_eq hfirst]
      exact ⟨hfirst, ih h⟩

/-- A message that could be made has its defaults and nothing else. -/
theorem eq_fresh_of_newMessage {decl : MessageDecl} (hnames : decl.DistinctProperties)
    {m : Message} (h : codec.newMessage decl = .ok m) : m = codec.fresh decl := by
  have hfresh : codec.newMessage decl = .ok (codec.fresh decl) :=
    setDefaults_eq (exists_of_setDefaults h) hnames fun _ _ => rfl
  exact Except.ok.inj (h.symm.trans hfresh)

theorem messages_of_zeroOf {kind : FieldKind} {v : Value} (h : zeroOf kind = .ok v) :
    v.messages = [] := by
  cases kind <;> cases h <;> rfl

/-- No default holds a message. -/
theorem messages_of_defaultOf {field : Field} {v : Value} (h : codec.defaultOf field = some v) :
    v.messages = [] := by
  cases hdefault : codec.defaultValue field.info with
  | error e =>
    rw [defaultOf, hdefault] at h
    cases h
  | ok value =>
    rw [defaultOf_eq hdefault] at h
    subst h
    unfold defaultValue at hdefault
    split at hdefault
    case h_6 =>
      obtain ⟨e, -, he⟩ := Wire.exists_of_map_eq_ok hdefault
      cases he
      rfl
    case h_7 | h_8 =>
      cases hdefault
      rfl
    case h_9 => cases hdefault
    all_goals
      obtain ⟨zero, hzero, hv⟩ := Wire.exists_of_map_eq_ok hdefault
      cases hv
      exact messages_of_zeroOf hzero

theorem SingleMembers.get?_fresh_of_oneof (h : codec.SingleMembers) {decl : MessageDecl}
    (hdecl : decl ∈ codec.messages) {field : Field} (hf : field ∈ decl.fields)
    (hmember : field.info.oneof.isSome = true) :
    (codec.fresh decl).get? field.info.name = none := by
  rw [get?_fresh (h.properties decl hdecl) hf]
  exact defaultOf_of_oneof (h.formed decl hdecl field hf) (h.oneofs decl hdecl field hf hmember)
    hmember

/-- There is no member of a oneof in a new message, and no message. -/
theorem SingleMembers.throughout_fresh (h : codec.SingleMembers) {decl : MessageDecl}
    (hdecl : decl ∈ codec.messages) : Throughout codec OneOfEach decl (codec.fresh decl) := by
  rw [throughout_iff]
  constructor
  · intro f hf g _ hmember _ hpresent _
    rw [h.get?_fresh_of_oneof hdecl hf hmember] at hpresent
    cases hpresent
  · intro field hf v hv
    rw [get?_fresh (h.properties decl hdecl) hf] at hv
    exact within_of_messages_eq_nil (messages_of_defaultOf hv) _

end Codec
end ProtoStub
