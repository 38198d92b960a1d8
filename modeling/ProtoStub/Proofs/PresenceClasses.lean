import Mathlib
import ProtoStub.Proofs.DeclaredTypes

/-!
# Classes of presence

A field is a list, a map, a single message, a value that can be absent or a value that counts as
absent while it is zero. New messages, both formats and the generated modules tell these classes
apart by the flags of a field (`Presence.Marked`) and rely on what a field of a class is at first
(`Presence.Starts`). In a resolved file the flags of every field belong to exactly one class, and
the field starts as its class says. The key and the value of a map are taken from the fields of its
entries and are not optional, whatever those fields were declared to be.

What is said of every field of a resolved file, at any depth, is said of what the construction of a
single field can result in (`forall_fields_of_build`).
-/

namespace ProtoStub

/-! ## Zeros -/

/-- Whether a field starts at the zero of a kind that is no enum. -/
def Initial.isScalarZero : Initial → Bool
  | zero | bigZero | falsity | emptyText | emptyBytes => true
  | enumZero _ | emptyList | emptyMap | unset => false

/-- Whether a field starts at the zero of a kind. -/
def Initial.isZero : Initial → Bool
  | enumZero _ => true
  | initial => initial.isScalarZero

theorem FieldKind.isScalarZero_of_isMapKey {kind : FieldKind} (h : kind.isMapKey = true) :
    kind.initialValue.isScalarZero = true := by
  cases kind with
  | double | float | bytes | enum | message | group => cases h
  | int32 | int64 | uint32 | uint64 | sint32 | sint64 | fixed32 | fixed64 | sfixed32 | sfixed64
  | bool | string => rfl

/-- Only messages and groups have no zero. -/
theorem FieldInfo.isZero_initialValue {info : FieldInfo} (hgroup : info.kind ≠ .group) :
    info.kind.initialValue.isZero = !info.hasMessageKind := by
  unfold hasMessageKind
  cases hkind : info.kind with
  | group => exact absurd hkind hgroup
  | _ => rfl

theorem FieldInfo.initialValue_eq_unset {info : FieldInfo} (h : info.hasMessageKind = true) :
    info.kind.initialValue = .unset := by
  unfold hasMessageKind at h
  split at h
  next target hkind => rw [hkind, FieldKind.initialValue]
  · cases h

/-! ## Classes -/

/-- How the absence of a field shows. -/
inductive Presence where
  /-- A repeated field, which has no items. -/
  | list
  /-- A map, which has no entries. -/
  | map
  /-- A single message, which is not there. -/
  | message
  /-- A single value of another kind, which is not there. -/
  | explicit
  /-- A single value of another kind, which is zero. -/
  | implicit
  deriving DecidableEq, Repr

/-- The flags of a field are those of a class. -/
def Presence.Marked (field : Field) : Presence → Prop
  | list => field.info.repeated = true
  | map => field.isMap = true ∧ field.info.repeated = false ∧ field.info.optional = false
  | message => field.isMessage = true
  | explicit => field.isMessage = false ∧ field.info.optional = true
  | implicit => field.implicitPresence = true

/-- What a field of a class is at first. -/
def Presence.Starts (info : FieldInfo) : Presence → Prop
  | list => info.initial = .emptyList
  | map => info.initial = .emptyMap
  | message | explicit => info.initial = .unset
  | implicit => info.initial = info.kind.initialValue ∧ info.initial.isZero = true

namespace Field

/-- The class of a field. -/
def presence : Field → Presence
  | map _ _ _ => .map
  | plain info =>
    if info.repeated then .list
    else if info.hasMessageKind then .message
    else if info.optional then .explicit
    else .implicit

theorem marked_iff {field : Field} (h : field.Formed) (p : Presence) :
    p.Marked field ↔ p = field.presence := by
  cases h with
  | @map info key value _ hrepeated hoptional =>
    cases p <;> simp [Presence.Marked, presence, Field.info, isMap, isMessage, implicitPresence,
      hrepeated, hoptional]
  | @plain info _ _ _ hoptional =>
    cases hrepeated : info.repeated with
    | true =>
      have hnone := hoptional hrepeated
      cases p <;> simp [Presence.Marked, presence, Field.info, isMap, isMessage, implicitPresence,
        hrepeated, hnone]
    | false =>
      cases hkind : info.hasMessageKind <;> cases hopt : info.optional <;> cases p <;>
        simp [Presence.Marked, presence, Field.info, isMap, isMessage, implicitPresence, hrepeated,
          hkind, hopt]

theorem starts_presence {field : Field} (h : field.Formed) : field.presence.Starts field.info := by
  cases h with
  | map _ _ _ hinitial => exact hinitial
  | @plain info _ hgroup hinitial hoptional =>
    rw [FieldKind.initial] at hinitial
    rw [presence, Field.info]
    split_ifs at hinitial ⊢ with hrepeated hkind hopt hopt
    · exact hinitial
    · exact hinitial
    · exact hinitial.trans (FieldInfo.initialValue_eq_unset hkind)
    · exact hinitial
    · refine ⟨hinitial, ?_⟩
      rw [hinitial, FieldInfo.isZero_initialValue hgroup, Bool.not_eq_true']
      exact Bool.eq_false_of_not_eq_true hkind

/-- A member of a oneof that holds a single value can be absent and is so at first. -/
theorem initial_eq_unset_of_oneof {field : Field} (h : field.Formed)
    (honeof : field.info.oneof.isSome = true) (hrepeated : field.info.repeated = false)
    (hmap : field.isMap = false) : field.info.initial = .unset := by
  cases h with
  | map => cases hmap
  | @plain info _ _ hinitial _ hmember =>
    have hoptional := hmember honeof hrepeated
    rw [Field.info] at hrepeated
    rw [Field.info, hinitial, hrepeated, hoptional]
    rfl

end Field

/-! ## Keys and values of maps -/

/-- A field that is not optional and starts as its kind does. -/
structure FieldInfo.Held (info : FieldInfo) : Prop where
  optional : info.optional = false
  initial : info.initial = info.kind.initialValue

theorem MessageDecl.held_entryField {field result : Field} (h : entryField field = .ok result) :
    result.info.Held := by
  obtain ⟨hkind, -, -, hinitial⟩ := entryField_info h
  refine ⟨?_, by rw [hkind, hinitial]⟩
  unfold entryField at h
  obtain ⟨shape, -, h⟩ := Except.exists_of_bind h
  cases h
  cases field <;> rfl

theorem MessageDecl.held_keyAndValue {entry : MessageDecl} {key value : Field}
    (h : entry.keyAndValue = .ok (key, value)) : key.info.Held ∧ value.info.Held := by
  unfold keyAndValue at h
  split at h
  · obtain ⟨key', hkey, h⟩ := Except.exists_of_bind h
    obtain ⟨value', hvalue, h⟩ := Except.exists_of_bind h
    cases h
    exact ⟨held_entryField hkey, held_entryField hvalue⟩
  · cases h

/-- The key and the value of a field that is a map are held. -/
def Field.EntryHeld : Field → Prop
  | plain _ => True
  | map _ key value => key.info.Held ∧ value.info.Held

namespace FileContext

variable {ctx : FileContext}

theorem entryHeld_of_field {messageName : String} {oneofs : List String} {nested : List Decl}
    {comment : Option String} {f : FieldDescriptor} {field : Field}
    (h : (ctx.field messageName oneofs nested comment f).Gives field) : field.EntryHeld := by
  obtain ⟨before, after, h⟩ := h
  obtain ⟨kind, t, shape, -, -, rfl | ⟨entry, key, value, -, -, hpair, rfl⟩⟩ := exists_of_field h
  · trivial
  · exact MessageDecl.held_keyAndValue hpair

end FileContext

/-! ## Every field of a file -/

/-- What holds of every field that can be constructed holds of every field of every message of
resolved files. -/
theorem FileTree.forall_fields_of_build {P : Field → Prop}
    (hP : ∀ (ctx : FileContext) messageName oneofs nested comment f field,
      (ctx.field messageName oneofs nested comment f).Gives field → P field)
    {files : List FileDescriptor} {targets : List String} {language : Language}
    {trees : List FileTree} (h : FileTree.build files targets language = .ok trees) :
    ∀ tree ∈ trees, ∀ d ∈ tree.walk, ∀ decl, d.asMessage = some decl →
      ∀ field ∈ decl.fields, P field := by
  intro tree htree d hd decl hdecl field hfield
  obtain ⟨file, -, -, top, -, ctx, partPath, part, enums, messages, -, hmade⟩ :=
    exists_madeOf_of_build h tree htree d hd decl hdecl
  obtain ⟨f, -, comment, hgives⟩ := exists_of_forall₂ hmade.fields field hfield
  exact hP ctx _ _ _ comment f field hgives

/-- The flags of every field of a resolved file are those of exactly one class, and what the field
is at first is what the class says. A member of a oneof that is neither repeated nor a map is unset
at first. The key and the value of a map are not optional: the key is a scalar zero at first, and
the value is a zero unless it is a message, which is unset. -/
theorem presence_of_build {files : List FileDescriptor} {targets : List String}
    {language : Language} {trees : List FileTree}
    (h : FileTree.build files targets language = .ok trees) :
    ∀ tree ∈ trees, ∀ d ∈ tree.walk, ∀ decl, d.asMessage = some decl → ∀ field ∈ decl.fields,
      (∃! p : Presence, p.Marked field ∧ p.Starts field.info) ∧
      (∀ p : Presence, p.Marked field → p.Starts field.info) ∧
      (field.info.oneof.isSome = true → field.info.repeated = false → field.isMap = false →
        field.info.initial = .unset) ∧
      ∀ info key value, field = .map info key value →
        key.info.optional = false ∧ value.info.optional = false ∧
        key.info.initial = key.info.kind.initialValue ∧
        key.info.initial.isScalarZero = true ∧
        value.info.initial = value.info.kind.initialValue ∧
        if value.info.hasMessageKind then value.info.initial = .unset
        else value.info.initial.isZero = true := by
  intro tree htree d hd decl hdecl field hfield
  have hheld : field.EntryHeld :=
    FileTree.forall_fields_of_build (fun _ _ _ _ _ _ _ => FileContext.entryHeld_of_field) h tree
      htree d hd decl hdecl field hfield
  have hformed : field.Formed := by
    obtain ⟨top, htop, hd⟩ := Decl.mem_walkAll.1 hd
    exact (FileTree.build_formed h tree htree top htop d hd decl hdecl).fields field hfield
  have hmarked := Field.marked_iff hformed
  have hstarts := Field.starts_presence hformed
  refine ⟨⟨field.presence, ⟨(hmarked _).2 rfl, hstarts⟩, fun p hp => (hmarked p).1 hp.1⟩,
    fun p hp => ?_, Field.initial_eq_unset_of_oneof hformed, ?_⟩
  · rw [(hmarked p).1 hp]
    exact hstarts
  · rintro info key value rfl
    obtain ⟨hkey, hvalue⟩ := hheld
    cases hformed with
    | map _ _ _ _ hkeyKind _ _ hgroup =>
      refine ⟨hkey.optional, hvalue.optional, hkey.initial, ?_, hvalue.initial, ?_⟩
      · rw [hkey.initial]
        exact FieldKind.isScalarZero_of_isMapKey hkeyKind
      · rw [hvalue.initial]
        split
        next hmessage => exact FieldInfo.initialValue_eq_unset hmessage
        next hmessage =>
          rw [FieldInfo.isZero_initialValue hgroup, Bool.not_eq_true']
          exact Bool.eq_false_of_not_eq_true hmessage

/-- A file with a field of every class. -/
def hiveFile : FileDescriptor :=
  { name := some "hive.proto"
    dialect := "proto3"
    messages := [
      { name := "Hive"
        fields := [
          { name := "combs", number := 1, label := .repeated, type := .sint32 },
          { name := "swarms", number := 2, label := .repeated, type := .message,
            typeName := ".Hive.SwarmsEntry" },
          { name := "parent", number := 3, type := .message, typeName := ".Hive" },
          { name := "wild", number := 4, type := .bool, proto3Optional := true,
            oneofIndex := some 1 },
          { name := "meadow", number := 5, type := .string, oneofIndex := some 0 },
          { name := "keeper", number := 6, type := .string }]
        nested := [
          { name := "SwarmsEntry"
            fields := [
              { name := "key", number := 1, type := .string },
              { name := "value", number := 2, type := .message, typeName := ".Hive" }]
            isMapEntry := true }]
        oneofs := ["place", "_wild"] }] }

/-- The fields of the messages of a file, with their classes. -/
def FileTree.presences (tree : FileTree) : List (List (String × Presence)) :=
  (tree.walk.filterMap Decl.asMessage).map fun decl =>
    decl.fields.map fun field => (field.info.name, field.presence)

theorem presence_of_build_hive :
    ∃ tree, FileTree.build [hiveFile] ["hive.proto"] .typeScript = .ok [tree] ∧
      tree.presences =
        [[("combs", .list), ("swarms", .map), ("parent", .message), ("wild", .explicit),
            ("meadow", .explicit), ("keeper", .implicit)],
          [("key", .implicit), ("value", .message)]] ∧
      ∀ decl ∈ tree.walk.filterMap Decl.asMessage, ∀ field ∈ decl.fields,
        ∃! p : Presence, p.Marked field ∧ p.Starts field.info := by
  have hpresences : (FileTree.build [hiveFile] ["hive.proto"] .typeScript).map
      (List.map FileTree.presences) = .ok
        [[[("combs", .list), ("swarms", .map), ("parent", .message), ("wild", .explicit),
            ("meadow", .explicit), ("keeper", .implicit)],
          [("key", .implicit), ("value", .message)]]] := by
    cbv
  obtain ⟨tree, hbuild, htree⟩ := FileTree.exists_of_map_build hpresences
  refine ⟨tree, hbuild, htree, fun decl hdecl field hfield => ?_⟩
  obtain ⟨d, hd, hdecl⟩ := List.mem_filterMap.1 hdecl
  exact (presence_of_build hbuild tree List.mem_cons_self d hd decl hdecl field hfield).1

end ProtoStub
