import ProtoStub.Proofs.BuiltFields
import ProtoStub.Proofs.KeyMaps
import ProtoStub.Proofs.Scalars

/-!
# Messages that conform to their types

`ConformsTo` says that a message is one of a type: its properties are those the type
declares, each holds what its field can hold, and so on through lists, maps and nested
messages, as deep as the message goes. What is asked of a message beyond the kinds of its
values (canonical enums and keys, one member of a oneof, …) is the *discipline* it conforms
under, so the same definition serves messages about to be written and messages just read.
-/

namespace ProtoStub

/-! ## Schemas -/

namespace Field

/-- The kind of the single values that a field holds: those of the entries of a map. -/
def contentKind : Field → FieldKind
  | plain info => info.kind
  | map _ _ value => value.info.kind

/-- Whether a field holds one value and not several. -/
def isSingle : Field → Bool
  | plain info => !info.repeated
  | map _ _ _ => false

end Field

namespace MessageDecl

/-- No two fields have the same number. -/
def DistinctNumbers (decl : MessageDecl) : Prop := (decl.fields.map (·.info.number)).Nodup

/-- No two fields have the same property. -/
def DistinctProperties (decl : MessageDecl) : Prop := (decl.fields.map (·.info.name)).Nodup

theorem fieldByNumber?_of_mem {decl : MessageDecl} (h : decl.DistinctNumbers) {field : Field}
    (hf : field ∈ decl.fields) : decl.fieldByNumber? field.info.number = some field :=
  find?_of_nodup_map h hf

theorem mem_siblings {decl : MessageDecl} {field g : Field} :
    g ∈ decl.siblings field ↔ g ∈ decl.fields ∧ field.info.oneof.isSome = true ∧
      g.info.oneof = field.info.oneof ∧ g.info.number ≠ field.info.number := by
  simp only [siblings, List.mem_filter, Bool.and_eq_true, decide_eq_true_eq, and_assoc]

end MessageDecl

namespace Codec

/-- The codec knows the type that a kind refers to, if any. -/
def Indexed (codec : Codec) : FieldKind → Prop
  | .message target => ∃ decl, codec.message target.fqName = .ok decl
  | .enum target => ∃ e, codec.enumeration target.fqName = .ok e
  | _ => True

/-- A schema that messages can be written and read by. -/
structure Valid (codec : Codec) : Prop where
  numbers : ∀ decl ∈ codec.messages, decl.DistinctNumbers
  range : ∀ decl ∈ codec.messages, ∀ field ∈ decl.fields, Wire.IsFieldNumber field.info.number
  properties : ∀ decl ∈ codec.messages, decl.DistinctProperties
  oneofs : ∀ decl ∈ codec.messages, ∀ field ∈ decl.fields,
    field.info.oneof.isSome = true → field.isSingle = true
  enums : codec.DistinctEnumNames
  indexed : ∀ decl ∈ codec.messages, ∀ field ∈ decl.fields, codec.Indexed field.contentKind

theorem mem_of_message {codec : Codec} {name : String} {decl : MessageDecl}
    (h : codec.message name = .ok decl) : decl ∈ codec.messages := by
  simp only [message] at h
  split at h
  next hfind =>
    cases h
    exact List.mem_of_find?_eq_some hfind
  · cases h

/-! ## Conforming values -/

/-- What is asked of a message beyond values of the right kinds. -/
structure Discipline where
  /-- Which values of an enum count. -/
  enum : EnumDecl → EnumValue → Prop
  /-- Which texts can be keys of a map whose keys are of a kind. -/
  key : FieldKind → String → Prop
  /-- What is asked of each message at its own level. -/
  level : MessageDecl → Message → Prop

/-- A text that is the one by which its key goes. -/
def IsKeyText (kind : FieldKind) (text : String) : Prop :=
  (keyOfText? kind text).map textOfKey = some text

/-- Enums and keys in the form in which they are read, and a condition on every level. -/
abbrev canonical (level : MessageDecl → Message → Prop) : Discipline :=
  ⟨EnumDecl.Canonical, IsKeyText, level⟩

/-- A single value of a kind; `nested` says which messages are of a type. -/
inductive Conforms (codec : Codec) (rules : Discipline) (nested : MessageDecl → Message → Prop) :
    FieldKind → Value → Prop
  | scalar {kind : FieldKind} {v : Value} (fits : Fits codec rules.enum kind v) :
      Conforms codec rules nested kind v
  | message {target : TypeRef} {decl : MessageDecl} {m : Message}
      (declared : codec.message target.fqName = .ok decl) (message : nested decl m) :
      Conforms codec rules nested (.message target) (.message m)

/-- What a field can hold. -/
inductive Holds (codec : Codec) (rules : Discipline) (nested : MessageDecl → Message → Prop) :
    Field → Value → Prop
  | single {info : FieldInfo} {v : Value} (single : info.repeated = false)
      (value : Conforms codec rules nested info.kind v) :
      Holds codec rules nested (.plain info) v
  | list {info : FieldInfo} {items : List Value} (repeated : info.repeated = true)
      (values : ∀ v ∈ items, Conforms codec rules nested info.kind v) :
      Holds codec rules nested (.plain info) (.list items)
  | map {info : FieldInfo} {key value : Field} {entries : List (String × Value)}
      (sorted : KeyMap.Sorted entries) (keys : ∀ p ∈ entries, rules.key key.info.kind p.1)
      (values : ∀ p ∈ entries, Conforms codec rules nested value.info.kind p.2) :
      Holds codec rules nested (.map info key value) (.map entries)

/-- A message of a type: every property is one that the type declares and holds what its field
can hold. -/
inductive ConformsTo (codec : Codec) (rules : Discipline) : MessageDecl → Message → Prop
  | intro {decl : MessageDecl} {m : Message} (typeName : m.typeName = decl.fqName)
      (sorted : m.Sorted) (level : rules.level decl m)
      (declared : ∀ name v, m.get? name = some v → ∃ field ∈ decl.fields, field.info.name = name)
      (holds : ∀ field ∈ decl.fields, ∀ v, m.get? field.info.name = some v →
        Holds codec rules (ConformsTo codec rules) field v) :
      ConformsTo codec rules decl m

variable {codec : Codec} {rules rules' : Discipline} {decl : MessageDecl} {m : Message}

theorem Conforms.mono {nested nested' : MessageDecl → Message → Prop} {kind : FieldKind}
    {v : Value} (h : Conforms codec rules nested kind v)
    (henum : ∀ e x, rules.enum e x → rules'.enum e x)
    (hnested : ∀ target decl m, kind = .message target →
      codec.message target.fqName = .ok decl → nested decl m → nested' decl m) :
    Conforms codec rules' nested' kind v := by
  cases h with
  | scalar hfits => exact .scalar (hfits.mono henum)
  | message hdecl hm => exact .message hdecl (hnested _ _ _ rfl hdecl hm)

theorem Conforms.fits {nested : MessageDecl → Message → Prop} {kind : FieldKind} {v : Value}
    (h : Conforms codec rules nested kind v) (hne : ∀ target, kind ≠ .message target) :
    Fits codec rules.enum kind v := by
  cases h with
  | scalar hfits => exact hfits
  | message => exact absurd rfl (hne _)

theorem Conforms.nested {nested : MessageDecl → Message → Prop} {target : TypeRef}
    (h : Conforms codec rules nested (.message target) (.message m))
    (hdecl : codec.message target.fqName = .ok decl) : nested decl m := by
  cases h with
  | scalar hfits => cases hfits
  | message hdecl' hm =>
    rw [hdecl] at hdecl'
    cases hdecl'
    exact hm

theorem Holds.mono {nested nested' : MessageDecl → Message → Prop} {field : Field} {v : Value}
    (h : Holds codec rules nested field v) (henum : ∀ e x, rules.enum e x → rules'.enum e x)
    (hkey : ∀ kind text, rules.key kind text → rules'.key kind text)
    (hnested : ∀ target decl m, field.contentKind = .message target →
      codec.message target.fqName = .ok decl → nested decl m → nested' decl m) :
    Holds codec rules' nested' field v := by
  cases h with
  | single hsingle hv => exact .single hsingle (hv.mono henum hnested)
  | list hrep hvs => exact .list hrep fun v hv => (hvs v hv).mono henum hnested
  | map hsorted hkeys hvs =>
    exact .map hsorted (fun p hp => hkey _ _ (hkeys p hp)) fun p hp =>
      (hvs p hp).mono henum hnested

/-- What a field holds, with more known of the messages in it. -/
theorem Holds.imp {nested nested' : MessageDecl → Message → Prop} {field : Field} {v : Value}
    (h : Holds codec rules nested field v)
    (hnested : ∀ target decl m, field.contentKind = .message target →
      codec.message target.fqName = .ok decl → nested decl m → nested' decl m) :
    Holds codec rules nested' field v :=
  h.mono (fun _ _ hx => hx) (fun _ _ hx => hx) hnested

namespace ConformsTo

theorem typeName (h : ConformsTo codec rules decl m) : m.typeName = decl.fqName := by
  cases h with | intro h _ _ _ _ => exact h

theorem sorted (h : ConformsTo codec rules decl m) : m.Sorted := by
  cases h with | intro _ h _ _ _ => exact h

theorem level (h : ConformsTo codec rules decl m) : rules.level decl m := by
  cases h with | intro _ _ h _ _ => exact h

theorem declared (h : ConformsTo codec rules decl m) {name : String} {v : Value}
    (hv : m.get? name = some v) : ∃ field ∈ decl.fields, field.info.name = name := by
  cases h with | intro _ _ _ h _ => exact h name v hv

theorem holds (h : ConformsTo codec rules decl m) {field : Field} (hf : field ∈ decl.fields)
    {v : Value} (hv : m.get? field.info.name = some v) :
    Holds codec rules (ConformsTo codec rules) field v := by
  cases h with | intro _ _ _ _ h => exact h field hf v hv

/-- Induction over a message of a type: a property of messages holds if it holds wherever it
holds of all messages inside. -/
@[elab_as_elim] theorem induct {motive : MessageDecl → Message → Prop}
    (step : ∀ decl m, ConformsTo codec rules decl m →
      (∀ field ∈ decl.fields, ∀ v, m.get? field.info.name = some v →
        Holds codec rules (fun d x => ConformsTo codec rules d x ∧ motive d x) field v) →
      motive decl m)
    (h : ConformsTo codec rules decl m) : motive decl m := by
  refine @ConformsTo.rec codec rules (fun decl m _ => motive decl m)
    (fun field v _ =>
      Holds codec rules (fun d x => ConformsTo codec rules d x ∧ motive d x) field v)
    (fun kind v _ =>
      Conforms codec rules (fun d x => ConformsTo codec rules d x ∧ motive d x) kind v)
    ?_ ?_ ?_ ?_ ?_ ?_ decl m h
  · intro decl m htype hsorted hlevel hdeclared hholds ih
    exact step decl m (.intro htype hsorted hlevel hdeclared hholds) ih
  · intro info v hsingle _ ih
    exact .single hsingle ih
  · intro info items hrep _ ih
    exact .list hrep ih
  · intro info key value entries hsorted hkeys _ ih
    exact .map hsorted hkeys ih
  · intro kind v hfits
    exact .scalar hfits
  · intro target decl m hdecl hm ih
    exact .message hdecl ⟨hm, ih⟩

/-- A weaker discipline asks for less. -/
theorem mono (h : ConformsTo codec rules decl m)
    (henum : ∀ e x, rules.enum e x → rules'.enum e x)
    (hkey : ∀ kind text, rules.key kind text → rules'.key kind text)
    (hlevel : ∀ decl m, rules.level decl m → rules'.level decl m) :
    ConformsTo codec rules' decl m := by
  refine ConformsTo.induct (fun decl m hm ih => ?_) h
  refine .intro hm.typeName hm.sorted (hlevel decl m hm.level) (fun _ _ hv => hm.declared hv) ?_
  intro field hf v hv
  exact (ih field hf v hv).mono henum hkey fun _ _ _ _ _ hx => hx.2

end ConformsTo

end Codec
end ProtoStub
