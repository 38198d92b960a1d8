import ProtoStub.Proofs.Defaults

/-!
# Schemas with fewer fields

A schema may know fewer fields of its types than another (`Codec.trim`): an older version of it,
or one for readers that are not interested in the rest. A message is *restricted* to a schema
by leaving out every property that its type does not declare there, in every message in it as well
(`Message.restrict`). What conforms to a type still does so once both are cut down
(`ConformsTo.restrict`).
-/

namespace ProtoStub

/-! ## Fewer fields -/

/-- The type with those of its fields that are kept. -/
def MessageDecl.trim (keep : MessageDecl → Field → Bool) (decl : MessageDecl) : MessageDecl :=
  { decl with fields := decl.fields.filter (keep decl) }

/-- The schema in which every type has those of its fields that are kept. -/
def Codec.trim (codec : Codec) (keep : MessageDecl → Field → Bool) : Codec :=
  { codec with messages := codec.messages.map (·.trim keep) }

namespace MessageDecl

variable {keep : MessageDecl → Field → Bool} {decl : MessageDecl} {field : Field}

theorem mem_trim : field ∈ (decl.trim keep).fields ↔ field ∈ decl.fields ∧ keep decl field = true :=
  List.mem_filter

theorem DistinctNumbers.trim (h : decl.DistinctNumbers) : (decl.trim keep).DistinctNumbers :=
  List.Nodup.sublist (List.filter_sublist.map _) h

theorem DistinctProperties.trim (h : decl.DistinctProperties) :
    (decl.trim keep).DistinctProperties :=
  List.Nodup.sublist (List.filter_sublist.map _) h

end MessageDecl

namespace Codec

variable {codec : Codec} {keep : MessageDecl → Field → Bool} {decl : MessageDecl}

theorem message_trim {name : String} (h : codec.message name = .ok decl) :
    (codec.trim keep).message name = .ok (decl.trim keep) := by
  have hfind : (codec.messages.map (·.trim keep)).find? (·.fqName = Text.withoutDot name) =
      (codec.messages.find? (·.fqName = Text.withoutDot name)).map (·.trim keep) :=
    List.find?_map
  simp only [message, trim, hfind] at h ⊢
  cases hdecl : codec.messages.find? (·.fqName = Text.withoutDot name) with
  | none =>
    rw [hdecl] at h
    cases h
  | some d =>
    rw [hdecl] at h
    cases h
    rfl

theorem Indexed.trim {kind : FieldKind} (h : codec.Indexed kind) :
    (codec.trim keep).Indexed kind := by
  cases kind with
  | message target =>
    obtain ⟨decl, hdecl⟩ := h
    exact ⟨decl.trim keep, message_trim hdecl⟩
  | _ => exact h

theorem Sound.trim (h : codec.Sound) : (codec.trim keep).Sound := by
  have hmem : ∀ decl' ∈ (codec.trim keep).messages,
      ∃ decl ∈ codec.messages, decl.trim keep = decl' := fun _ => List.mem_map.1
  refine ⟨⟨?_, ?_, ?_, ?_, h.enums, ?_⟩, ?_⟩ <;> intro decl' hdecl' <;>
    obtain ⟨decl, hdecl, rfl⟩ := hmem decl' hdecl'
  · exact (h.numbers decl hdecl).trim
  · exact fun field hf => h.range decl hdecl field (MessageDecl.mem_trim.1 hf).1
  · exact (h.properties decl hdecl).trim
  · exact fun field hf => h.oneofs decl hdecl field (MessageDecl.mem_trim.1 hf).1
  · exact fun field hf => (h.indexed decl hdecl field (MessageDecl.mem_trim.1 hf).1).trim
  · exact fun field hf => h.formed decl hdecl field (MessageDecl.mem_trim.1 hf).1

theorem Fits.trim {allowed : EnumDecl → EnumValue → Prop} {kind : FieldKind} {v : Value}
    (h : Fits codec allowed kind v) : Fits (codec.trim keep) allowed kind v := by
  cases h with
  | enum hdeclared hvalue => exact .enum hdeclared hvalue
  | _ => constructor

end Codec

/-! ## Fewer properties -/

/-- The message with those of the given parts that are properties of a type. -/
def MessageDecl.assemble (decl : MessageDecl) (typeName : String)
    (parts : List (String × (FieldKind → Value))) : Message :=
  (Message.empty typeName).putAll decl.fields fun field =>
    (KeyMap.find? parts field.info.name).map (· field.contentKind)

mutual

/-- A value of a field whose single values are of a kind, with every message in it restricted to
the properties that its type declares. -/
def Value.restrict (codec : Codec) : Value → FieldKind → Value
  | .message ⟨typeName, fields⟩ => fun kind =>
    match kind with
    | .message target =>
      match codec.message target.fqName with
      | .ok decl => .message (decl.assemble typeName (Value.restrictions codec fields))
      | .error _ => .message ⟨typeName, fields⟩
    | _ => .message ⟨typeName, fields⟩
  | .list items => fun kind => .list (Value.restrictItems codec items kind)
  | .map entries => fun kind => .map (Value.restrictEntries codec entries kind)
  | .double x => fun _ => .double x
  | .float x => fun _ => .float x
  | .int32 n => fun _ => .int32 n
  | .int64 n => fun _ => .int64 n
  | .uint32 n => fun _ => .uint32 n
  | .uint64 n => fun _ => .uint64 n
  | .bool b => fun _ => .bool b
  | .string s => fun _ => .string s
  | .bytes bs => fun _ => .bytes bs
  | .enum e => fun _ => .enum e

/-- The items of a list, each restricted. -/
def Value.restrictItems (codec : Codec) : List Value → FieldKind → List Value
  | [] => fun _ => []
  | v :: rest => fun kind => v.restrict codec kind :: Value.restrictItems codec rest kind

/-- The entries of a map, each value restricted. -/
def Value.restrictEntries (codec : Codec) :
    List (String × Value) → FieldKind → List (String × Value)
  | [] => fun _ => []
  | (k, v) :: rest => fun kind =>
    (k, v.restrict codec kind) :: Value.restrictEntries codec rest kind

/-- The properties of a message, each value restricted. -/
def Value.restrictions (codec : Codec) :
    List (String × Value) → List (String × (FieldKind → Value))
  | [] => []
  | (k, v) :: rest => (k, v.restrict codec) :: Value.restrictions codec rest

end

/-- A message of a type, restricted to the properties that the type declares, and so every message
in it. -/
def Message.restrict (m : Message) (codec : Codec) (decl : MessageDecl) : Message :=
  decl.assemble m.typeName (Value.restrictions codec m.fields)

section

variable (codec : Codec)

theorem Value.restrictItems_eq_map (items : List Value) (kind : FieldKind) :
    Value.restrictItems codec items kind = items.map (·.restrict codec kind) := by
  induction items with
  | nil => rfl
  | cons v rest ih => simp only [Value.restrictItems, ih, List.map_cons]

theorem Value.restrictEntries_eq_map (entries : List (String × Value)) (kind : FieldKind) :
    Value.restrictEntries codec entries kind =
      entries.map fun p => (p.1, p.2.restrict codec kind) := by
  induction entries with
  | nil => rfl
  | cons p rest ih => simp only [Value.restrictEntries, ih, List.map_cons]

theorem Value.restrictions_eq_map (fields : List (String × Value)) :
    Value.restrictions codec fields = fields.map fun p => (p.1, p.2.restrict codec) := by
  induction fields with
  | nil => rfl
  | cons p rest ih => simp only [Value.restrictions, ih, List.map_cons]

theorem Value.restrict_list (items : List Value) (kind : FieldKind) :
    (Value.list items).restrict codec kind = .list (items.map (·.restrict codec kind)) := by
  simp only [Value.restrict, Value.restrictItems_eq_map]

theorem Value.restrict_map (entries : List (String × Value)) (kind : FieldKind) :
    (Value.map entries).restrict codec kind =
      .map (entries.map fun p => (p.1, p.2.restrict codec kind)) := by
  simp only [Value.restrict, Value.restrictEntries_eq_map]

variable {codec} {decl : MessageDecl} {m : Message}

theorem Value.restrict_message {target : TypeRef} (h : codec.message target.fqName = .ok decl) :
    (Value.message m).restrict codec (.message target) = .message (m.restrict codec decl) := by
  obtain ⟨typeName, fields⟩ := m
  simp only [Value.restrict, h, Message.restrict]

theorem Value.restrict_of_fits {codec' : Codec} {allowed : EnumDecl → EnumValue → Prop}
    {kind : FieldKind} {v : Value} (h : Codec.Fits codec' allowed kind v) :
    v.restrict codec kind = v := by
  cases h <;> rfl

namespace Message

theorem restrict_eq (m : Message) (codec : Codec) (decl : MessageDecl) :
    m.restrict codec decl = (Message.empty m.typeName).putAll decl.fields fun field =>
      (m.get? field.info.name).map (·.restrict codec field.contentKind) := by
  simp only [restrict, MessageDecl.assemble, Value.restrictions_eq_map, KeyMap.find?_map,
    Option.map_map]
  rfl

theorem typeName_restrict : (m.restrict codec decl).typeName = m.typeName := by
  rw [restrict_eq, typeName_putAll]
  rfl

theorem sorted_restrict : (m.restrict codec decl).Sorted := by
  rw [restrict_eq]
  exact (sorted_empty m.typeName).putAll _ _

theorem get?_restrict (hnames : decl.DistinctProperties) {field : Field} (hf : field ∈ decl.fields) :
    (m.restrict codec decl).get? field.info.name =
      (m.get? field.info.name).map (·.restrict codec field.contentKind) := by
  rw [restrict_eq, get?_putAll_of_mem hnames hf]

theorem declared_of_restrict {name : String} {v : Value}
    (hv : (m.restrict codec decl).get? name = some v) :
    ∃ field ∈ decl.fields, field.info.name = name := by
  by_contra hname
  have hne : ∀ field ∈ decl.fields, field.info.name ≠ name :=
    fun field hf heq => hname ⟨field, hf, heq⟩
  rw [restrict_eq, get?_putAll_of_forall_ne hne] at hv
  cases hv

theorem exists_of_restrict (hnames : decl.DistinctProperties) {field : Field}
    (hf : field ∈ decl.fields) {v' : Value}
    (hv : (m.restrict codec decl).get? field.info.name = some v') :
    ∃ v, m.get? field.info.name = some v ∧ v.restrict codec field.contentKind = v' := by
  rw [get?_restrict hnames hf] at hv
  exact Option.map_eq_some_iff.1 hv

end Message

end

/-! ## Conforming messages -/

namespace Codec

variable {codec : Codec} {keep : MessageDecl → Field → Bool} {rules : Discipline}
  {nested nested' : MessageDecl → Message → Prop}

theorem Conforms.restrict {kind : FieldKind} {v : Value} (h : Conforms codec rules nested kind v)
    (hnested : ∀ decl ∈ codec.messages, ∀ m, nested decl m →
      nested' (decl.trim keep) (m.restrict (codec.trim keep) (decl.trim keep))) :
    Conforms (codec.trim keep) rules nested' kind (v.restrict (codec.trim keep) kind) := by
  cases h with
  | scalar hfits =>
    rw [Value.restrict_of_fits hfits]
    exact .scalar hfits.trim
  | message hdecl hm =>
    rw [Value.restrict_message (message_trim hdecl)]
    exact .message (message_trim hdecl) (hnested _ (mem_of_message hdecl) _ hm)

theorem Holds.restrict {field : Field} {v : Value} (h : Holds codec rules nested field v)
    (hnested : ∀ decl ∈ codec.messages, ∀ m, nested decl m →
      nested' (decl.trim keep) (m.restrict (codec.trim keep) (decl.trim keep))) :
    Holds (codec.trim keep) rules nested' field
      (v.restrict (codec.trim keep) field.contentKind) := by
  cases h with
  | single hsingle hv => exact .single hsingle (hv.restrict hnested)
  | list hrep hvs =>
    rw [Value.restrict_list]
    refine .list hrep fun v' hv' => ?_
    obtain ⟨v, hv, rfl⟩ := List.mem_map.1 hv'
    exact (hvs v hv).restrict hnested
  | map hsorted hkeys hvs =>
    rw [Value.restrict_map]
    refine .map (hsorted.map _) (fun p' hp' => ?_) fun p' hp' => ?_ <;>
      obtain ⟨p, hp, rfl⟩ := List.mem_map.1 hp'
    · exact hkeys p hp
    · exact (hvs p hp).restrict hnested

/-- A message of a type, once restricted, is one of the type with fewer fields. -/
theorem ConformsTo.restrict (hsound : codec.Sound) {decl : MessageDecl} {m : Message}
    (hlevel : ∀ decl ∈ codec.messages, ∀ m, ConformsTo codec rules decl m →
      rules.level (decl.trim keep) (m.restrict (codec.trim keep) (decl.trim keep)))
    (h : ConformsTo codec rules decl m) : decl ∈ codec.messages →
    ConformsTo (codec.trim keep) rules (decl.trim keep)
      (m.restrict (codec.trim keep) (decl.trim keep)) := by
  refine ConformsTo.induct (fun decl m hm ih hdecl => ?_) h
  refine .intro ?_ Message.sorted_restrict (hlevel decl hdecl m hm)
    (fun _ _ => Message.declared_of_restrict) ?_
  · rw [Message.typeName_restrict, hm.typeName]
    rfl
  · intro field hf v' hv'
    obtain ⟨v, hv, rfl⟩ := Message.exists_of_restrict (hsound.properties decl hdecl).trim hf hv'
    exact (ih field (MessageDecl.mem_trim.1 hf).1 v hv).restrict fun _ hd _ hx => hx.2 hd

theorem OneOfEach.restrict {decl : MessageDecl} (hnames : decl.DistinctProperties) {m : Message}
    (h : OneOfEach decl m) :
    OneOfEach (decl.trim keep) (m.restrict (codec.trim keep) (decl.trim keep)) := by
  intro f hf g hg hmember hsame hfv hgv
  rw [Message.get?_restrict hnames.trim hf, Option.isSome_map] at hfv
  rw [Message.get?_restrict hnames.trim hg, Option.isSome_map] at hgv
  exact h f (MessageDecl.mem_trim.1 hf).1 g (MessageDecl.mem_trim.1 hg).1 hmember hsame hfv hgv

theorem ConformsTo.noNegativeZero_restrict {decl : MessageDecl}
    (hnames : decl.DistinctProperties) {m : Message} (h : ConformsTo codec rules decl m)
    (hzero : NoNegativeZero decl m) :
    NoNegativeZero (decl.trim keep) (m.restrict (codec.trim keep) (decl.trim keep)) := by
  intro field hf himplicit v' hv'
  obtain ⟨v, hv, rfl⟩ := Message.exists_of_restrict hnames.trim hf hv'
  have hf := (MessageDecl.mem_trim.1 hf).1
  obtain ⟨hfits, hkind⟩ := (h.holds hf hv).fits_of_implicit himplicit
  rw [hkind, Value.restrict_of_fits hfits]
  exact hzero field hf himplicit v hv

end Codec
end ProtoStub
