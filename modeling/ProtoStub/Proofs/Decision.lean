import Mathlib
import ProtoStub.Proofs.Defaults

/-!
# Schemas and messages can be checked

Whether a schema is valid is decidable, and so is whether a message that is nested no deeper
than a given bound conforms to its type (`ConformsWithin`). A message that passes the check
conforms (`conformsTo_of_within`), so a concrete one needs no proof of its own.

The schema `grove` has one of everything that takes care to write and to read: a type that
refers to itself, a map to an enum, a oneof, and a field that cannot be absent.
-/

namespace ProtoStub

/-! ## Single values -/

instance (e : EnumDecl) : Decidable e.DistinctNames :=
  inferInstanceAs (Decidable (List.Nodup _))

instance (e : EnumDecl) : DecidablePred e.Canonical
  | .unknown number => inferInstanceAs (Decidable (e.nameOf? number = none))
  | .named name => by
    refine decidable_of_iff (∃ v ∈ e.values, e.nameOf? v.number = some name) ⟨?_, ?_⟩
    · rintro ⟨v, -, hv⟩
      exact ⟨v.number, hv⟩
    · rintro ⟨number, hname⟩
      obtain ⟨v, hv, rfl⟩ := Option.map_eq_some_iff.1 hname
      have hnumber : v.number = number := by simpa using List.find?_some hv
      exact ⟨v, List.mem_of_find?_eq_some hv, by rw [hnumber, hname]⟩

instance : DecidablePred Value.IsNegativeZero
  | .double x => decidable_of_iff (x = .negativeZero) (by simp [Value.IsNegativeZero])
  | .float x => decidable_of_iff (x = .negativeZero) (by simp [Value.IsNegativeZero])
  | .int32 _ | .int64 _ | .uint32 _ | .uint64 _ | .bool _ | .string _ | .bytes _ | .enum _
  | .message _ | .list _ | .map _ => isFalse (by simp [Value.IsNegativeZero])

namespace Codec

variable {codec : Codec}

instance {target : TypeRef} : Decidable (codec.Indexed (.message target)) :=
  match h : codec.message target.fqName with
  | .ok decl => isTrue ⟨decl, h⟩
  | .error _ => isFalse fun ⟨_, hdecl⟩ => by rw [h] at hdecl; cases hdecl

instance {target : TypeRef} : Decidable (codec.Indexed (.enum target)) :=
  match h : codec.enumeration target.fqName with
  | .ok e => isTrue ⟨e, h⟩
  | .error _ => isFalse fun ⟨_, he⟩ => by rw [h] at he; cases he

instance : DecidablePred codec.Indexed
  | .message _ => inferInstance
  | .enum _ => inferInstance
  | .double | .float | .int32 | .int64 | .uint32 | .uint64 | .sint32 | .sint64 | .fixed32
  | .fixed64 | .sfixed32 | .sfixed64 | .bool | .string | .bytes | .group => isTrue trivial

section

variable {allowed : EnumDecl → EnumValue → Prop} [∀ e v, Decidable (allowed e v)]

instance decidableFitsEnum (target : TypeRef) (v : EnumValue) :
    Decidable (Fits codec allowed (.enum target) (.enum v)) :=
  match hdeclared : codec.enumeration target.fqName with
  | .ok e => decidable_of_iff (allowed e v) ⟨.enum hdeclared, fun h => by
      cases h with | enum h hv => rw [hdeclared] at h; cases h; exact hv⟩
  | .error _ => isFalse fun h => by
      cases h with | enum h _ => rw [hdeclared] at h; cases h

instance (kind : FieldKind) (v : Value) : Decidable (Fits codec allowed kind v) := by
  cases kind with
  | message | group => exact isFalse nofun
  | enum target =>
    cases v with
    | enum x => exact decidableFitsEnum target x
    | _ => exact isFalse nofun
  | double => cases v with | double x => exact isTrue (.double x) | _ => exact isFalse nofun
  | float => cases v with | float x => exact isTrue (.float x) | _ => exact isFalse nofun
  | int32 => cases v with | int32 n => exact isTrue (.int32 n) | _ => exact isFalse nofun
  | int64 => cases v with | int64 n => exact isTrue (.int64 n) | _ => exact isFalse nofun
  | uint32 => cases v with | uint32 n => exact isTrue (.uint32 n) | _ => exact isFalse nofun
  | uint64 => cases v with | uint64 n => exact isTrue (.uint64 n) | _ => exact isFalse nofun
  | sint32 => cases v with | int32 n => exact isTrue (.sint32 n) | _ => exact isFalse nofun
  | sint64 => cases v with | int64 n => exact isTrue (.sint64 n) | _ => exact isFalse nofun
  | fixed32 => cases v with | uint32 n => exact isTrue (.fixed32 n) | _ => exact isFalse nofun
  | fixed64 => cases v with | uint64 n => exact isTrue (.fixed64 n) | _ => exact isFalse nofun
  | sfixed32 => cases v with | int32 n => exact isTrue (.sfixed32 n) | _ => exact isFalse nofun
  | sfixed64 => cases v with | int64 n => exact isTrue (.sfixed64 n) | _ => exact isFalse nofun
  | bool => cases v with | bool b => exact isTrue (.bool b) | _ => exact isFalse nofun
  | string => cases v with | string s => exact isTrue (.string s) | _ => exact isFalse nofun
  | bytes => cases v with | bytes bs => exact isTrue (.bytes bs) | _ => exact isFalse nofun

end

/-! ## Schemas -/

instance (decl : MessageDecl) : Decidable decl.DistinctNumbers :=
  inferInstanceAs (Decidable (List.Nodup _))

instance (decl : MessageDecl) : Decidable decl.DistinctProperties :=
  inferInstanceAs (Decidable (List.Nodup _))

instance : Decidable codec.DistinctEnumNames :=
  inferInstanceAs (Decidable (∀ e ∈ codec.enums, e.DistinctNames))

instance : Decidable codec.Valid :=
  decidable_of_iff
    ((∀ decl ∈ codec.messages, decl.DistinctNumbers ∧ decl.DistinctProperties ∧
      ∀ field ∈ decl.fields, Wire.IsFieldNumber field.info.number ∧
        (field.info.oneof.isSome = true → field.isSingle = true) ∧
        codec.Indexed field.contentKind) ∧
      codec.DistinctEnumNames) <| by
    constructor
    · rintro ⟨hdecls, henums⟩
      exact ⟨fun decl h => (hdecls decl h).1, fun decl h field hf => ((hdecls decl h).2.2 field hf).1,
        fun decl h => (hdecls decl h).2.1, fun decl h field hf => ((hdecls decl h).2.2 field hf).2.1,
        henums, fun decl h field hf => ((hdecls decl h).2.2 field hf).2.2⟩
    · intro h
      refine ⟨fun decl hdecl => ⟨h.numbers decl hdecl, h.properties decl hdecl, ?_⟩, h.enums⟩
      intro field hf
      exact ⟨h.range decl hdecl field hf, h.oneofs decl hdecl field hf, h.indexed decl hdecl field hf⟩

/-! ## Messages -/

instance (decl : MessageDecl) (m : Message) : Decidable (OneOfEach decl m) := by
  unfold OneOfEach
  infer_instance

instance (decl : MessageDecl) (m : Message) : Decidable (NoNegativeZero decl m) :=
  inferInstanceAs (Decidable (∀ field ∈ decl.fields, field.implicitPresence = true →
    ∀ v ∈ m.get? field.info.name, ¬ v.IsNegativeZero))

instance (decl : MessageDecl) (m : Message) : Decidable (Complete codec decl m) := by
  unfold Complete
  infer_instance

instance (kind : FieldKind) (text : String) : Decidable (IsKeyText kind text) := by
  unfold IsKeyText
  infer_instance

instance {α : Type} (m : KeyMap α) : Decidable (KeyMap.Sorted m) :=
  inferInstanceAs (Decidable (List.Pairwise _ _))

instance (m : Message) : Decidable m.Sorted :=
  inferInstanceAs (Decidable (KeyMap.Sorted m.fields))

section

variable {rules : Discipline} {nested : MessageDecl → Message → Prop}
  [∀ e v, Decidable (rules.enum e v)] [∀ kind text, Decidable (rules.key kind text)]
  [∀ decl m, Decidable (rules.level decl m)] [∀ decl m, Decidable (nested decl m)]

instance decidableConformsMessage (target : TypeRef) (m : Message) :
    Decidable (Conforms codec rules nested (.message target) (.message m)) :=
  match hdeclared : codec.message target.fqName with
  | .ok decl => decidable_of_iff (nested decl m) ⟨.message hdeclared, fun h => h.nested hdeclared⟩
  | .error _ => isFalse fun h => by
      cases h with
      | scalar h => cases h
      | message h _ => rw [hdeclared] at h; cases h

instance (kind : FieldKind) (v : Value) : Decidable (Conforms codec rules nested kind v) := by
  cases kind with
  | message target =>
    cases v with
    | message m => exact decidableConformsMessage target m
    | _ =>
      refine isFalse fun h => ?_
      cases h with | scalar h => cases h
  | _ => exact decidable_of_iff _ ⟨Conforms.scalar, fun h => h.fits nofun⟩

instance (field : Field) (v : Value) : Decidable (Holds codec rules nested field v) := by
  cases field with
  | plain info =>
    cases hrep : info.repeated with
    | false =>
      refine decidable_of_iff (Conforms codec rules nested info.kind v) ⟨.single hrep, fun h => ?_⟩
      cases h with
      | single _ h => exact h
      | list h _ => rw [hrep] at h; cases h
    | true =>
      cases v with
      | list items =>
        refine decidable_of_iff (∀ v ∈ items, Conforms codec rules nested info.kind v)
          ⟨.list hrep, fun h => ?_⟩
        cases h with
        | single h _ => rw [hrep] at h; cases h
        | list _ h => exact h
      | _ =>
        refine isFalse fun h => ?_
        cases h with | single h _ => rw [hrep] at h; cases h
  | map info key value =>
    cases v with
    | map entries =>
      refine decidable_of_iff (KeyMap.Sorted entries ∧
          (∀ p ∈ entries, rules.key key.info.kind p.1) ∧
          ∀ p ∈ entries, Conforms codec rules nested value.info.kind p.2)
        ⟨fun h => .map h.1 h.2.1 h.2.2, fun h => ?_⟩
      cases h with | map hsorted hkeys hvalues => exact ⟨hsorted, hkeys, hvalues⟩
    | _ => exact isFalse nofun

end

/-- A message of a type in which messages are nested less than `depth` deep. -/
def ConformsWithin (codec : Codec) (rules : Discipline) : Nat → MessageDecl → Message → Prop
  | 0, _, _ => False
  | depth + 1, decl, m =>
    m.typeName = decl.fqName ∧ m.Sorted ∧ rules.level decl m ∧
      (∀ p ∈ m.fields, ∃ field ∈ decl.fields, field.info.name = p.1) ∧
      ∀ field ∈ decl.fields, ∀ v ∈ m.get? field.info.name,
        Holds codec rules (ConformsWithin codec rules depth) field v

instance decidableConformsWithin {rules : Discipline} [∀ e v, Decidable (rules.enum e v)]
    [∀ kind text, Decidable (rules.key kind text)] [∀ decl m, Decidable (rules.level decl m)] :
    (depth : Nat) → (decl : MessageDecl) → (m : Message) →
      Decidable (ConformsWithin codec rules depth decl m)
  | 0, _, _ => isFalse id
  | depth + 1, decl, m => by
    have := @decidableConformsWithin rules _ _ _ depth
    unfold ConformsWithin
    infer_instance

/-- A message that passes the check conforms. -/
theorem conformsTo_of_within {rules : Discipline} (depth : Nat) {decl : MessageDecl} {m : Message}
    (h : ConformsWithin codec rules depth decl m) : ConformsTo codec rules decl m := by
  induction depth generalizing decl m with
  | zero => exact absurd h id
  | succ depth ih =>
    obtain ⟨htype, hsorted, hlevel, hdeclared, hholds⟩ := h
    refine .intro htype hsorted hlevel ?_ ?_
    · intro name v hv
      exact hdeclared (name, v) (KeyMap.mem_of_find? hv)
    · intro field hf v hv
      exact (hholds field hf v hv).imp fun _ _ _ _ _ hm => ih hm

/-! ## A schema to look at -/

/-- The file that declares trees, whose heights are of the given type. -/
def groveFile (height : FieldType) : FileDescriptor :=
  { name := some "grove.proto"
    package := "grove"
    dialect := "proto3"
    enums := [{ name := "Kind", values := [⟨"UNKNOWN", 0⟩, ⟨"FIR", 1⟩, ⟨"OAK", 2⟩] }]
    messages := [
      { name := "Tree"
        fields := [
          { name := "tree_height", number := 1, type := height },
          { name := "branches", number := 2, label := .repeated, type := .message,
            typeName := ".grove.Tree" },
          { name := "marks", number := 3, label := .repeated, type := .message,
            typeName := ".grove.Tree.MarksEntry" },
          { name := "person", number := 4, type := .string, oneofIndex := some 0 },
          { name := "club", number := 5, type := .int64, oneofIndex := some 0 }]
        nested := [
          { name := "MarksEntry"
            fields := [
              { name := "key", number := 1, type := .sint32 },
              { name := "value", number := 2, type := .enum, typeName := ".grove.Kind" }]
            isMapEntry := true }]
        oneofs := ["owner"] }] }

/-- A reference to a type of the grove. -/
def groveRef (shortName : String) (kind : DeclKind) : TypeRef :=
  ⟨"grove." ++ shortName, "grove.proto", "grove", shortName, kind, shortName⟩

/-- A field of a type of the grove; only members of oneofs can be absent. -/
def groveField (name protoName : String) (number : UInt32) (kind : FieldKind) (repeated : Bool)
    (oneof : Option String) : FieldInfo :=
  { name, number, repeated, optional := oneof.isSome, oneof, kind
    initial := kind.initial repeated oneof.isSome
    operations := kind.operations repeated
    protoName, jsonName := name, customJsonName := none, comment := none }

/-- The kinds of trees. -/
def groveKind : EnumDecl :=
  { name := "Kind", fqName := "grove.Kind", shortName := "Kind"
    values := [⟨"UNKNOWN", 0, none⟩, ⟨"FIR", 1, none⟩, ⟨"OAK", 2, none⟩]
    comment := none }

/-- The key of a mark. -/
def groveKey : Field := .plain (groveField "key" "key" 1 .sint32 false none)

/-- A mark. -/
def groveMark : Field :=
  .plain (groveField "value" "value" 2 (.enum (groveRef "Kind" .enum)) false none)

/-- Trees, whose heights are of the given kind. -/
def groveTree (height : FieldKind) : MessageDecl :=
  { name := "Tree", fqName := "grove.Tree", shortName := "Tree", isMapEntry := false
    fields := [
      .plain (groveField "treeHeight" "tree_height" 1 height false none),
      .plain (groveField "branches" "branches" 2 (.message (groveRef "Tree" .message)) true none),
      .map { groveField "marks" "marks" 3 (.message (groveRef "Tree.MarksEntry" .message)) true none
          with repeated := false, initial := .emptyMap } groveKey groveMark,
      .plain (groveField "person" "person" 4 .string false (some "owner")),
      .plain (groveField "club" "club" 5 .int64 false (some "owner"))]
    comment := none }

/-- The codec of the grove. -/
def grove (height : FieldKind) (options : Options) : Codec :=
  { messages := [
      { name := "MarksEntry", fqName := "grove.Tree.MarksEntry", shortName := "Tree.MarksEntry"
        isMapEntry := true, fields := [groveKey, groveMark], comment := none },
      groveTree height]
    enums := [groveKind]
    emitDefaults := options.emitDefaults
    protoNames := options.protoNames }

theorem resolved_grove_double : (grove .double {}).Resolved :=
  resolved_of_build [groveFile .double] ["grove.proto"] .javaScript {} (by cbv)

theorem valid_grove_double : (grove .double {}).Valid := by
  decide +kernel

end Codec
end ProtoStub
