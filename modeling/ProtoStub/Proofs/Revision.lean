import ProtoStub.Proofs.Conformance

/-!
# Changing messages at every depth

Some relations between two messages are best said as a change that is made to every property
of every message in them: absent properties are filled, signs of zeros are dropped. Such a
change is given by what it does to one property (`Change`); `Message.revise` makes it from the
inside out, and `get?_revise` reads the result off property by property.
-/

namespace ProtoStub

namespace Message

/-! ## Properties that may be absent -/

/-- Gives a property a value or unsets it. -/
def put (m : Message) (name : String) : Option Value → Message
  | some value => m.set name value
  | none => m.unset name

/-- Puts the property of every given field. -/
def putAll (m : Message) (fields : List Field) (value : Field → Option Value) : Message :=
  fields.foldl (fun m field => m.put field.info.name (value field)) m

@[simp] theorem get?_put (m : Message) (name : String) (value : Option Value) (other : String) :
    (m.put name value).get? other = if name = other then value else m.get? other := by
  cases value with
  | none => exact m.get?_unset name other
  | some v => exact m.get?_set name v other

theorem Sorted.put {m : Message} (h : m.Sorted) (name : String) (value : Option Value) :
    (m.put name value).Sorted := by
  cases value with
  | none => exact h.unset name
  | some v => exact h.set name v

@[simp] theorem typeName_put (m : Message) (name : String) (value : Option Value) :
    (m.put name value).typeName = m.typeName := by
  cases value <;> rfl

/-- Putting what is there changes nothing. -/
theorem Sorted.put_self {m : Message} (h : m.Sorted) {name : String} {value : Option Value}
    (hv : m.get? name = value) : m.put name value = m := by
  cases value with
  | none => exact unset_of_get?_none hv
  | some v => exact h.set_self hv

theorem get?_putAll_of_forall_ne {m : Message} {fields : List Field}
    {value : Field → Option Value} {name : String} (h : ∀ field ∈ fields, field.info.name ≠ name) :
    (m.putAll fields value).get? name = m.get? name := by
  induction fields generalizing m with
  | nil => rfl
  | cons field rest ih =>
    rw [List.forall_mem_cons] at h
    refine (ih h.2).trans ?_
    rw [get?_put, if_neg h.1]

theorem get?_putAll_of_mem {m : Message} {fields : List Field} {value : Field → Option Value}
    (hnames : (fields.map (·.info.name)).Nodup) {field : Field} (hf : field ∈ fields) :
    (m.putAll fields value).get? field.info.name = value field := by
  induction fields generalizing m with
  | nil => cases hf
  | cons first rest ih =>
    rw [List.map_cons, List.nodup_cons] at hnames
    rcases List.mem_cons.1 hf with rfl | hf
    · -- No later field has the same property.
      have hne : ∀ g ∈ rest, g.info.name ≠ field.info.name := by
        intro g hg heq
        exact hnames.1 (heq ▸ List.mem_map_of_mem hg)
      refine (get?_putAll_of_forall_ne hne).trans ?_
      rw [get?_put, if_pos rfl]
    · exact ih hnames.2 hf

/-- A property that is put leaves those of the fields after it as they are. -/
theorem get?_put_of_notMem {m : Message} {name : String} {rest : List Field}
    (hname : name ∉ rest.map (·.info.name)) {old : Field → Option Value}
    (hold : ∀ g ∈ rest, m.get? g.info.name = old g) (value : Option Value) :
    ∀ g ∈ rest, (m.put name value).get? g.info.name = old g := by
  intro g hg
  have hne : name ≠ g.info.name := by
    intro heq
    exact hname (heq ▸ List.mem_map_of_mem hg)
  rw [get?_put, if_neg hne, hold g hg]

theorem Sorted.putAll {m : Message} (h : m.Sorted) (fields : List Field)
    (value : Field → Option Value) : (m.putAll fields value).Sorted := by
  induction fields generalizing m with
  | nil => exact h
  | cons field rest ih => exact ih (h.put field.info.name (value field))

@[simp] theorem typeName_putAll (m : Message) (fields : List Field)
    (value : Field → Option Value) : (m.putAll fields value).typeName = m.typeName := by
  induction fields generalizing m with
  | nil => rfl
  | cons field rest ih => exact (ih _).trans (typeName_put m _ _)

theorem putAll_congr {m : Message} {fields : List Field} {value value' : Field → Option Value}
    (h : ∀ field ∈ fields, value field = value' field) :
    m.putAll fields value = m.putAll fields value' := by
  induction fields generalizing m with
  | nil => rfl
  | cons field rest ih =>
    rw [List.forall_mem_cons] at h
    simp only [putAll, List.foldl_cons, h.1]
    exact ih h.2

theorem Sorted.putAll_self {m : Message} (h : m.Sorted) {fields : List Field}
    {value : Field → Option Value}
    (hvalue : ∀ field ∈ fields, value field = m.get? field.info.name) :
    m.putAll fields value = m := by
  induction fields with
  | nil => rfl
  | cons field rest ih =>
    rw [List.forall_mem_cons] at hvalue
    rw [Message.putAll, List.foldl_cons, h.put_self hvalue.1.symm]
    exact ih hvalue.2

end Message

/-! ## Revision -/

/-- What becomes of the property of a field. -/
abbrev Change : Type := Field → Option Value → Option Value

/-- A message in which the property of every field of its type is changed; `parts` are the
values of its properties as they depend on the kinds of their fields. -/
def Change.apply (change : Change) (decl : MessageDecl) (m : Message)
    (parts : List (String × (FieldKind → Value))) : Message :=
  m.putAll decl.fields fun field =>
    change field ((KeyMap.find? parts field.info.name).map (· field.contentKind))

mutual

/-- A value of a field whose single values are of a kind, with the change made to every message
in it. -/
def Value.revise (codec : Codec) (change : Change) : Value → FieldKind → Value
  | .message ⟨typeName, fields⟩ => fun kind =>
    match kind with
    | .message target =>
      match codec.message target.fqName with
      | .ok decl =>
        .message (change.apply decl ⟨typeName, fields⟩ (Value.revisions codec change fields))
      | .error _ => .message ⟨typeName, fields⟩
    | _ => .message ⟨typeName, fields⟩
  | .list items => fun kind => .list (Value.reviseItems codec change items kind)
  | .map entries => fun kind => .map (Value.reviseEntries codec change entries kind)
  | .double x => fun _ => .double x
  | .float x => fun _ => .float x
  | .int32 n => fun _ => .int32 n
  | .int64 n => fun _ => .int64 n
  | .uint32 n => fun _ => .uint32 n
  | .uint64 n => fun _ => .uint64 n
  | .bool b => fun _ => .bool b
  | .string s => fun _ => .string s
  | .bytes bs => fun _ => .bytes bs
  | .enum e => fun _ => .enum e

/-- The items of a list with the change made to each. -/
def Value.reviseItems (codec : Codec) (change : Change) : List Value → FieldKind → List Value
  | [] => fun _ => []
  | v :: rest => fun kind =>
    v.revise codec change kind :: Value.reviseItems codec change rest kind

/-- The entries of a map with the change made to each value. -/
def Value.reviseEntries (codec : Codec) (change : Change) :
    List (String × Value) → FieldKind → List (String × Value)
  | [] => fun _ => []
  | (k, v) :: rest => fun kind =>
    (k, v.revise codec change kind) :: Value.reviseEntries codec change rest kind

/-- The properties of a message with the change made to each value. -/
def Value.revisions (codec : Codec) (change : Change) :
    List (String × Value) → List (String × (FieldKind → Value))
  | [] => []
  | (k, v) :: rest => (k, v.revise codec change) :: Value.revisions codec change rest

end

/-- A message of a type with the change made to it and to every message in it. -/
def Message.revise (m : Message) (codec : Codec) (change : Change) (decl : MessageDecl) :
    Message :=
  change.apply decl m (Value.revisions codec change m.fields)

section

variable (codec : Codec) (change : Change)

theorem Value.reviseItems_eq_map (items : List Value) (kind : FieldKind) :
    Value.reviseItems codec change items kind = items.map (·.revise codec change kind) := by
  induction items with
  | nil => rfl
  | cons v rest ih => simp only [Value.reviseItems, ih, List.map_cons]

theorem Value.reviseEntries_eq_map (entries : List (String × Value)) (kind : FieldKind) :
    Value.reviseEntries codec change entries kind =
      entries.map fun p => (p.1, p.2.revise codec change kind) := by
  induction entries with
  | nil => rfl
  | cons p rest ih => simp only [Value.reviseEntries, ih, List.map_cons]

theorem Value.revisions_eq_map (fields : List (String × Value)) :
    Value.revisions codec change fields = fields.map fun p => (p.1, p.2.revise codec change) := by
  induction fields with
  | nil => rfl
  | cons p rest ih => simp only [Value.revisions, ih, List.map_cons]

theorem Value.revise_list (items : List Value) (kind : FieldKind) :
    (Value.list items).revise codec change kind =
      .list (items.map (·.revise codec change kind)) := by
  simp only [Value.revise, Value.reviseItems_eq_map]

theorem Value.revise_map (entries : List (String × Value)) (kind : FieldKind) :
    (Value.map entries).revise codec change kind =
      .map (entries.map fun p => (p.1, p.2.revise codec change kind)) := by
  simp only [Value.revise, Value.reviseEntries_eq_map]

variable {codec change}

theorem Value.revise_message {target : TypeRef} {decl : MessageDecl} {m : Message}
    (h : codec.message target.fqName = .ok decl) :
    (Value.message m).revise codec change (.message target) =
      .message (m.revise codec change decl) := by
  obtain ⟨typeName, fields⟩ := m
  simp only [Value.revise, h, Message.revise]

/-- There is nothing to change in a single value that is no message. -/
theorem Value.revise_of_fits {allowed : EnumDecl → EnumValue → Prop} {kind : FieldKind}
    {v : Value} (h : Codec.Fits codec allowed kind v) : v.revise codec change kind = v := by
  cases h <;> rfl

theorem Message.revise_eq (m : Message) (codec : Codec) (change : Change) (decl : MessageDecl) :
    m.revise codec change decl = m.putAll decl.fields fun field =>
      change field ((m.get? field.info.name).map (·.revise codec change field.contentKind)) := by
  simp only [Message.revise, Change.apply, Value.revisions_eq_map, KeyMap.find?_map,
    Option.map_map]
  rfl

theorem Message.typeName_revise (m : Message) (codec : Codec) (change : Change)
    (decl : MessageDecl) : (m.revise codec change decl).typeName = m.typeName := by
  rw [Message.revise_eq, Message.typeName_putAll]

theorem Message.Sorted.revise {m : Message} (h : m.Sorted) (codec : Codec) (change : Change)
    (decl : MessageDecl) : (m.revise codec change decl).Sorted := by
  rw [Message.revise_eq]
  exact h.putAll _ _

theorem Message.get?_revise {m : Message} {decl : MessageDecl} (hnames : decl.DistinctProperties)
    {field : Field} (hf : field ∈ decl.fields) :
    (m.revise codec change decl).get? field.info.name =
      change field ((m.get? field.info.name).map (·.revise codec change field.contentKind)) := by
  rw [Message.revise_eq, Message.get?_putAll_of_mem hnames hf]

theorem Message.get?_revise_of_forall_ne {m : Message} {decl : MessageDecl} {name : String}
    (h : ∀ field ∈ decl.fields, field.info.name ≠ name) :
    (m.revise codec change decl).get? name = m.get? name := by
  rw [Message.revise_eq, Message.get?_putAll_of_forall_ne h]

end

namespace Codec

/-! ## Changes that agree -/

variable {codec : Codec} {rules : Discipline} {change change' : Change}
  {nested : MessageDecl → Message → Prop}

theorem Conforms.revise_congr {kind : FieldKind} {v : Value}
    (h : Conforms codec rules nested kind v)
    (hnested : ∀ decl m, nested decl m → m.revise codec change decl = m.revise codec change' decl) :
    v.revise codec change kind = v.revise codec change' kind := by
  cases h with
  | scalar hfits => rw [Value.revise_of_fits hfits, Value.revise_of_fits hfits]
  | message hdecl hm => rw [Value.revise_message hdecl, Value.revise_message hdecl, hnested _ _ hm]

theorem Holds.revise_congr {field : Field} {v : Value} (h : Holds codec rules nested field v)
    (hnested : ∀ decl m, nested decl m → m.revise codec change decl = m.revise codec change' decl) :
    v.revise codec change field.contentKind = v.revise codec change' field.contentKind := by
  cases h with
  | single hsingle hv => exact hv.revise_congr hnested
  | list hrep hvs =>
    rw [Value.revise_list, Value.revise_list]
    exact congrArg Value.list (List.map_congr_left fun v hv => (hvs v hv).revise_congr hnested)
  | map hsorted hkeys hvs =>
    rw [Value.revise_map, Value.revise_map]
    refine congrArg Value.map (List.map_congr_left fun p hp => ?_)
    exact congrArg _ ((hvs p hp).revise_congr hnested)

/-- Two changes come to the same on a message if they do on every property that a message in it
can have. -/
theorem ConformsTo.revise_congr {decl : MessageDecl} {m : Message}
    (h : ConformsTo codec rules decl m)
    (hagree : ∀ decl m, ConformsTo codec rules decl m → ∀ field ∈ decl.fields,
      change field ((m.get? field.info.name).map (·.revise codec change' field.contentKind)) =
        change' field ((m.get? field.info.name).map (·.revise codec change' field.contentKind))) :
    m.revise codec change decl = m.revise codec change' decl := by
  refine ConformsTo.induct (fun decl m hm ih => ?_) h
  rw [Message.revise_eq, Message.revise_eq]
  refine Message.putAll_congr fun field hf => ?_
  rw [← hagree decl m hm field hf]
  cases hv : m.get? field.info.name with
  | none => rfl
  | some v => rw [Option.map_some, Option.map_some,
      (ih field hf v hv).revise_congr fun _ _ hx => hx.2]

/-! ## Changes that change nothing -/

theorem Conforms.revise_eq_self {kind : FieldKind} {v : Value}
    (h : Conforms codec rules nested kind v)
    (hnested : ∀ decl m, nested decl m → m.revise codec change decl = m) :
    v.revise codec change kind = v := by
  cases h with
  | scalar hfits => exact Value.revise_of_fits hfits
  | message hdecl hm => rw [Value.revise_message hdecl, hnested _ _ hm]

theorem Holds.revise_eq_self {field : Field} {v : Value} (h : Holds codec rules nested field v)
    (hnested : ∀ decl m, nested decl m → m.revise codec change decl = m) :
    v.revise codec change field.contentKind = v := by
  cases h with
  | single hsingle hv => exact hv.revise_eq_self hnested
  | @list info items hrep hvs =>
    have hid : ∀ v ∈ items, v.revise codec change info.kind = id v :=
      fun v hv => (hvs v hv).revise_eq_self hnested
    rw [Field.contentKind, Value.revise_list, List.map_congr_left hid, List.map_id]
  | @map info key value entries hsorted hkeys hvs =>
    have hid : ∀ p ∈ entries, (p.1, p.2.revise codec change value.info.kind) = id p :=
      fun p hp => congrArg (Prod.mk p.1) ((hvs p hp).revise_eq_self hnested)
    rw [Field.contentKind, Value.revise_map, List.map_congr_left hid, List.map_id]

/-- A change that leaves alone every property that a message in it can have leaves the whole
message alone. -/
theorem ConformsTo.revise_eq_self {decl : MessageDecl} {m : Message}
    (h : ConformsTo codec rules decl m)
    (hkeep : ∀ decl m, ConformsTo codec rules decl m → ∀ field ∈ decl.fields,
      change field (m.get? field.info.name) = m.get? field.info.name) :
    m.revise codec change decl = m := by
  refine ConformsTo.induct (fun decl m hm ih => ?_) h
  rw [Message.revise_eq]
  refine hm.sorted.putAll_self fun field hf => ?_
  cases hv : m.get? field.info.name with
  | none => rw [Option.map_none, ← hv, hkeep decl m hm field hf]
  | some v => rw [Option.map_some, (ih field hf v hv).revise_eq_self fun _ _ hx => hx.2, ← hv,
      hkeep decl m hm field hf]

end Codec
end ProtoStub
