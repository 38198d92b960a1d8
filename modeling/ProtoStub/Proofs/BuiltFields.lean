import ProtoStub.Codec.Basic
import ProtoStub.Tree.Build

/-!
# The fields of resolved files

What a field is at first, whether it can be absent and what kind of values it holds are
decided together when a file is resolved, and everything that reads or writes messages relies
on how they go together. `Field.Formed` says it once; `formed_of_build` shows it of every
field of every message of a resolved file, at any depth.
-/

namespace ProtoStub

/-! ## Well-formed fields -/

/-- The property of a field is its name in camel case, and a JSON name is kept apart only if it
is another one. -/
structure FieldInfo.Named (info : FieldInfo) : Prop where
  name : info.name = Text.camelCase info.protoName
  custom : info.customJsonName = if info.jsonName = info.name then none else some info.jsonName

/-- How the parts of a field go together. -/
inductive Field.Formed : Field → Prop
  /-- A field of a message: a repeated one starts as the empty list, one that can be absent
  starts absent, any other at the zero of its kind; a member of a oneof can be absent. -/
  | plain {info : FieldInfo} (named : info.Named) (kind : info.kind ≠ .group)
      (initial : info.initial = info.kind.initial info.repeated info.optional)
      (optional : info.repeated = true → info.optional = false)
      (oneof : info.oneof.isSome = true → info.repeated = false → info.optional = true) :
      Field.Formed (.plain info)
  /-- A map: it starts empty, and its entries always have a key and a value. -/
  | map {info : FieldInfo} {key value : Field} (named : info.Named)
      (repeated : info.repeated = false) (optional : info.optional = false)
      (initial : info.initial = .emptyMap) (keyKind : key.info.kind.isMapKey = true)
      (keyNumber : key.info.number = 1) (valueNumber : value.info.number = 2)
      (valueKind : value.info.kind ≠ .group)
      (valueInitial : value.info.initial = value.info.kind.initialValue) :
      Field.Formed (.map info key value)

theorem Field.Formed.named {field : Field} (h : field.Formed) : field.info.Named := by
  cases h with
  | plain named => exact named
  | map named => exact named

/-- A message with well-formed fields, which are those of a map entry if it is one. -/
structure MessageDecl.Formed (decl : MessageDecl) : Prop where
  fields : ∀ field ∈ decl.fields, field.Formed
  entry : decl.isMapEntry = true → MessageDecl.checkMapEntry decl.fqName decl.fields = .ok ()

/-- Every message of a declaration is well formed. -/
def Decl.Formed (d : Decl) : Prop :=
  ∀ d' ∈ d.walk, ∀ m, d'.asMessage = some m → m.Formed

theorem Decl.mem_walkAll {d : Decl} {ds : List Decl} :
    d ∈ Decl.walkAll ds ↔ ∃ d' ∈ ds, d ∈ d'.walk := by
  induction ds with
  | nil => simp [Decl.walkAll]
  | cons d' rest ih => simp [Decl.walkAll, ih]

theorem Decl.formed_message {m : MessageDecl} {children : List Decl} (hm : m.Formed)
    (hchildren : ∀ d ∈ children, d.Formed) : (Decl.message m children).Formed := by
  intro d hd m' hm'
  rw [Decl.walk] at hd
  rcases List.mem_cons.1 hd with rfl | hd
  · cases hm'
    exact hm
  · obtain ⟨child, hchild, hd⟩ := Decl.mem_walkAll.1 hd
    exact hchildren child hchild d hd m' hm'

/-! ## Successful constructions -/

theorem Except.exists_of_bind {ε α β : Type} {x : Except ε α} {f : α → Except ε β} {b : β}
    (h : (x >>= f) = .ok b) : ∃ a, x = .ok a ∧ f a = .ok b := by
  cases x with
  | error e => cases h
  | ok a => exact ⟨a, rfl, h⟩

/-- What holds of every result of a function that may fail holds of all results of a traversal. -/
theorem Except.forall_of_mapM {ε α β : Type} {f : α → Except ε β} {P : β → Prop} {xs : List α}
    {bs : List β} (hf : ∀ x ∈ xs, ∀ b, f x = .ok b → P b) (h : xs.mapM f = .ok bs) :
    ∀ b ∈ bs, P b := by
  induction xs generalizing bs with
  | nil =>
    rw [List.mapM_nil] at h
    cases h
    exact fun b hb => absurd hb List.not_mem_nil
  | cons x xs ih =>
    rw [List.mapM_cons] at h
    obtain ⟨b, hb, h⟩ := exists_of_bind h
    obtain ⟨rest, hrest, h⟩ := exists_of_bind h
    cases h
    rw [List.forall_mem_cons] at hf ⊢
    exact ⟨hf.1 b hb, ih hf.2 hrest⟩

namespace Build

variable {α β : Type}

theorem exists_of_bind {x : Build α} {f : α → Build β} {s s' : ImportTable} {b : β}
    (h : (x >>= f).run s = .ok (b, s')) :
    ∃ a t, x.run s = .ok (a, t) ∧ (f a).run t = .ok (b, s') := by
  obtain ⟨⟨a, t⟩, hx, hf⟩ := Except.exists_of_bind h
  exact ⟨a, t, hx, hf⟩

theorem eq_of_pure {a b : α} {s s' : ImportTable} (h : (pure a : Build α).run s = .ok (b, s')) :
    a = b := by
  cases h
  rfl

theorem eq_ok_of_lift {x : Except Error α} {s s' : ImportTable} {a : α}
    (h : (liftM x : Build α).run s = .ok (a, s')) : x = .ok a := by
  cases x with
  | error e => cases h
  | ok b =>
    cases h
    rfl

/-- What holds of every result of a step holds of all results of a traversal. -/
theorem forall_of_mapM {f : α → Build β} {P : β → Prop} {xs : List α}
    (hf : ∀ x ∈ xs, ∀ s b s', (f x).run s = .ok (b, s') → P b) {s s' : ImportTable}
    {bs : List β} (h : (xs.mapM f).run s = .ok (bs, s')) : ∀ b ∈ bs, P b := by
  induction xs generalizing s s' bs with
  | nil =>
    rw [List.mapM_nil] at h
    obtain rfl := eq_of_pure h
    exact fun b hb => absurd hb List.not_mem_nil
  | cons x xs ih =>
    rw [List.mapM_cons] at h
    obtain ⟨b, t, hb, h⟩ := exists_of_bind h
    obtain ⟨rest, t', hrest, h⟩ := exists_of_bind h
    obtain rfl := eq_of_pure h
    intro y hy
    rcases List.mem_cons.1 hy with rfl | hy
    · exact hf x List.mem_cons_self s y t hb
    · exact ih (fun x' hx' => hf x' (List.mem_cons_of_mem _ hx')) hrest y hy

end Build

/-! ## Shapes and entries -/

theorem FieldShape.of_eq_ok {kind : FieldKind} {repeated optional : Bool} {shape : FieldShape}
    (h : FieldShape.of kind repeated optional = .ok shape) :
    kind ≠ .group ∧ shape.initial = kind.initial repeated optional := by
  unfold FieldShape.of at h
  split at h
  · cases h
  next type htype =>
    cases h
    refine ⟨?_, rfl⟩
    rintro rfl
    cases htype

theorem MessageDecl.entryField_info {field result : Field} (h : entryField field = .ok result) :
    result.info.kind = field.info.kind ∧ result.info.number = field.info.number ∧
      field.info.kind ≠ .group ∧ result.info.initial = field.info.kind.initialValue := by
  unfold entryField at h
  obtain ⟨shape, hshape, h⟩ := Except.exists_of_bind h
  obtain ⟨hkind, hinitial⟩ := FieldShape.of_eq_ok hshape
  cases h
  cases field <;> exact ⟨rfl, rfl, hkind, hinitial⟩

theorem MessageDecl.checkMapEntry_eq_ok {fqName : String} {key value : Field}
    (h : checkMapEntry fqName [key, value] = .ok ()) :
    key.info.kind.isMapKey = true ∧ key.info.number = 1 ∧ value.info.number = 2 := by
  simp only [checkMapEntry] at h
  split at h
  next hnames =>
    split at h
    next hkey => exact ⟨hkey, hnames.2.1, hnames.2.2.2⟩
    · cases h
  · cases h

/-- The two fields of a map entry that passed its check, as the map field sees them. -/
theorem MessageDecl.keyAndValue_info {entry : MessageDecl} {key value : Field}
    (hcheck : checkMapEntry entry.fqName entry.fields = .ok ())
    (h : entry.keyAndValue = .ok (key, value)) :
    key.info.kind.isMapKey = true ∧ key.info.number = 1 ∧ value.info.number = 2 ∧
      value.info.kind ≠ .group ∧ value.info.initial = value.info.kind.initialValue := by
  unfold keyAndValue at h
  split at h
  next k v hfields =>
    obtain ⟨key', hkey, h⟩ := Except.exists_of_bind h
    obtain ⟨value', hvalue, h⟩ := Except.exists_of_bind h
    cases h
    obtain ⟨hkeyKind, hkeyNumber, -, -⟩ := entryField_info hkey
    obtain ⟨hvalueKind, hvalueNumber, hgroup, hinitial⟩ := entryField_info hvalue
    rw [hfields] at hcheck
    obtain ⟨hmapKey, hone, htwo⟩ := checkMapEntry_eq_ok hcheck
    rw [hkeyKind, hkeyNumber, hvalueKind, hvalueNumber]
    exact ⟨hmapKey, hone, htwo, hgroup, hinitial⟩
  · cases h

namespace FileContext

theorem fieldInfo_named (ctx : FileContext) (oneofs : List String) (comment : Option String)
    (field : FieldDescriptor) (kind : FieldKind) (shape : FieldShape) :
    (ctx.fieldInfo oneofs comment field kind shape).Named :=
  ⟨rfl, rfl⟩

/-- A member of a oneof has explicit presence. -/
theorem explicitPresence_of_oneof {field : FieldDescriptor} {oneofs : List String}
    (dialect : Dialect)
    (h : (if field.proto3Optional then none else field.oneof? oneofs).isSome = true) :
    field.explicitPresence oneofs dialect = true := by
  unfold FieldDescriptor.explicitPresence
  split at h
  · cases h
  · rw [h]
    simp

/-- The map entry that a field refers to is one of the nested messages. -/
theorem mapEntryOf?_eq_some {kind : FieldKind} {nested : List Decl} {entry : MessageDecl}
    (h : mapEntryOf? kind nested = some entry) :
    ∃ children, .message entry children ∈ nested ∧ entry.isMapEntry = true := by
  unfold mapEntryOf? at h
  split at h
  · obtain ⟨d, hd, hentry⟩ := List.mem_filterMap.1 (List.mem_of_find?_eq_some h)
    cases d with
    | enum e => cases hentry
    | message m children =>
      simp only [Decl.asMapEntry] at hentry
      split at hentry
      next hmap =>
        cases hentry
        exact ⟨children, hd, hmap⟩
      · cases hentry
  · cases h

/-- What the construction of a field comes to. The field is a map if its kind is one of the nested
map entries. -/
theorem exists_of_field {ctx : FileContext} {messageName : String} {oneofs : List String}
    {nested : List Decl} {comment : Option String} {field : FieldDescriptor}
    {s s' : ImportTable} {result : Field}
    (h : (ctx.field messageName oneofs nested comment field).run s = .ok (result, s')) :
    ∃ kind t shape,
      (FieldKind.ofType (ctx.resolve field.typeName) field.type).run s = .ok (kind, t) ∧
      FieldShape.of kind (field.label = .repeated)
        (!decide (field.label = .repeated) && field.explicitPresence oneofs ctx.dialect) =
          .ok shape ∧
      (result = .plain (ctx.fieldInfo oneofs comment field kind shape) ∨
        ∃ entry key value, mapEntryOf? kind nested = some entry ∧ field.label = .repeated ∧
          entry.keyAndValue = .ok (key, value) ∧
          result = .map { ctx.fieldInfo oneofs comment field kind shape with
            repeated := false, initial := .emptyMap } key value) := by
  unfold FileContext.field at h
  obtain ⟨kind, t, hkind, h⟩ := Build.exists_of_bind h
  simp only at h
  split at h
  next shape hshape =>
    obtain ⟨_, _, hpure, h⟩ := Build.exists_of_bind h
    obtain rfl := Build.eq_of_pure hpure
    refine ⟨kind, t, shape, hkind, hshape, ?_⟩
    split at h
    next entry hentry =>
      have hasMap := Build.eq_ok_of_lift h
      unfold asMap at hasMap
      split at hasMap
      next hrepeated =>
        obtain ⟨⟨key, value⟩, hpair, hasMap⟩ := Except.exists_of_bind hasMap
        cases hasMap
        exact .inr ⟨entry, key, value, hentry, of_decide_eq_true hrepeated, hpair, rfl⟩
      · cases hasMap
    · exact .inl (Build.eq_of_pure h).symm
  · cases h

/-- A resolved field is well formed if the nested messages, to which it may refer as a map, are. -/
theorem field_formed {ctx : FileContext} {messageName : String} {oneofs : List String}
    {nested : List Decl} {comment : Option String} {field : FieldDescriptor}
    (hnested : ∀ d ∈ nested, d.Formed) {s s' : ImportTable} {result : Field}
    (h : (ctx.field messageName oneofs nested comment field).run s = .ok (result, s')) :
    result.Formed := by
  obtain ⟨kind, t, shape, -, hshape, hresult⟩ := exists_of_field h
  obtain ⟨hgroup, hinitial⟩ := FieldShape.of_eq_ok hshape
  have hnamed := fieldInfo_named ctx oneofs comment field kind shape
  rcases hresult with rfl | ⟨entry, key, value, hentry, hlabel, hpair, rfl⟩
  · refine .plain hnamed hgroup ?_ ?_ ?_
    · simpa only [fieldInfo, ne_eq, decide_not] using hinitial
    · intro hrepeated
      have hlabel : field.label = .repeated := of_decide_eq_true hrepeated
      simp [fieldInfo, hlabel]
    · intro honeof hrepeated
      have hlabel : field.label ≠ .repeated := of_decide_eq_false hrepeated
      have hpresence := explicitPresence_of_oneof ctx.dialect honeof
      simp [fieldInfo, hlabel, hpresence]
  · obtain ⟨children, hmem, hmap⟩ := mapEntryOf?_eq_some hentry
    have hentryFormed : entry.Formed :=
      hnested _ hmem (.message entry children) List.mem_cons_self entry rfl
    obtain ⟨h1, h2, h3, h4, h5⟩ := MessageDecl.keyAndValue_info (hentryFormed.entry hmap) hpair
    exact .map ⟨hnamed.name, hnamed.custom⟩ rfl (by simp [fieldInfo, hlabel]) rfl h1 h2 h3 h4 h5

/-- There are no messages among enums. -/
theorem asMessage_of_enumDecls {ctx : FileContext} {namePath : String} {path : List Int32}
    {sort : Int32} {enums : List EnumDescriptor} {d d' : Decl}
    (hd : d ∈ ctx.enumDecls namePath path sort enums) (hd' : d' ∈ d.walk) :
    d'.asMessage = none := by
  obtain ⟨⟨e, i⟩, -, rfl⟩ := List.mem_map.1 hd
  rw [Decl.walk, List.mem_singleton] at hd'
  rw [hd', Decl.asMessage]

theorem enumDecls_formed (ctx : FileContext) (namePath : String) (path : List Int32)
    (sort : Int32) (enums : List EnumDescriptor) :
    ∀ d ∈ ctx.enumDecls namePath path sort enums, d.Formed := by
  intro d hd d' hd' m hm
  rw [asMessage_of_enumDecls hd hd'] at hm
  cases hm

mutual

/-- A resolved message is well formed, and so is everything nested in it. -/
theorem message_formed (ctx : FileContext) (namePath : String) (path : List Int32) :
    ∀ (m : MessageDescriptor) {s s' : ImportTable} {d : Decl},
      (ctx.message namePath path m).run s = .ok (d, s') → d.Formed
  | ⟨name, fields, extensionFields, nested, enums, oneofs, isMapEntry⟩, s, s', d, h => by
    unfold FileContext.message at h
    obtain ⟨-, s₁, -, h⟩ := Build.exists_of_bind h
    obtain ⟨messageDecls, s₂, hmessages, h⟩ := Build.exists_of_bind h
    have hmessagesFormed := messages_formed ctx _ path 3 0 nested hmessages
    simp only at h
    obtain ⟨fieldList, s₃, hfields, h⟩ := Build.exists_of_bind h
    have hchildren : ∀ d ∈ ctx.enumDecls (namePath ++ name ++ ".") path 4 enums ++ messageDecls,
        d.Formed := by
      intro d hd
      rcases List.mem_append.1 hd with hd | hd
      · exact enumDecls_formed ctx _ path 4 enums d hd
      · exact hmessagesFormed d hd
    have hfieldsFormed : ∀ field ∈ fieldList, field.Formed :=
      Build.forall_of_mapM (fun x _ _ _ _ hx => field_formed hchildren hx) hfields
    cases isMapEntry with
    | true =>
      obtain ⟨_, s₄, hcheck, h⟩ := Build.exists_of_bind h
      obtain rfl := Build.eq_of_pure h
      exact Decl.formed_message ⟨hfieldsFormed, fun _ => Build.eq_ok_of_lift hcheck⟩ hchildren
    | false =>
      obtain rfl := Build.eq_of_pure h
      exact Decl.formed_message ⟨hfieldsFormed, fun hmap => absurd hmap Bool.false_ne_true⟩
        hchildren

theorem messages_formed (ctx : FileContext) (namePath : String) (path : List Int32)
    (sort : Int32) (index : Nat) :
    ∀ (ms : List MessageDescriptor) {s s' : ImportTable} {ds : List Decl},
      (ctx.messages namePath path sort index ms).run s = .ok (ds, s') → ∀ d ∈ ds, d.Formed
  | [], s, s', ds, h => by
    unfold FileContext.messages at h
    obtain rfl := Build.eq_of_pure h
    exact fun d hd => absurd hd List.not_mem_nil
  | m :: rest, s, s', ds, h => by
    unfold FileContext.messages at h
    obtain ⟨decl, s₁, hdecl, h⟩ := Build.exists_of_bind h
    obtain ⟨decls, s₂, hdecls, h⟩ := Build.exists_of_bind h
    obtain rfl := Build.eq_of_pure h
    intro d hd
    rcases List.mem_cons.1 hd with rfl | hd
    · exact message_formed ctx namePath _ m hdecl
    · exact messages_formed ctx namePath path sort (index + 1) rest hdecls d hd

end

end FileContext

/-! ## Resolved files -/

theorem FileTree.ofFile_formed {scope : Scope} {language : Language} {file : FileDescriptor}
    {tree : FileTree} (h : FileTree.ofFile scope language file = .ok tree) :
    ∀ d ∈ tree.types, d.Formed := by
  unfold FileTree.ofFile at h
  obtain ⟨dialect, -, h⟩ := Except.exists_of_bind h
  obtain ⟨-, -, h⟩ := Except.exists_of_bind h
  obtain ⟨⟨⟨messages, services⟩, imports⟩, hrun, h⟩ := Except.exists_of_bind h
  obtain ⟨messages', s, hmessages, hrun⟩ := Build.exists_of_bind hrun
  obtain ⟨services', s', -, hrun⟩ := Build.exists_of_bind hrun
  cases Build.eq_of_pure hrun
  cases h
  intro d hd
  rcases List.mem_append.1 hd with hd | hd
  · exact FileContext.enumDecls_formed _ _ _ _ _ d hd
  · exact FileContext.messages_formed _ _ _ _ _ _ hmessages d hd

theorem FileTree.build_formed {files : List FileDescriptor} {targets : List String}
    {language : Language} {trees : List FileTree}
    (h : FileTree.build files targets language = .ok trees) :
    ∀ tree ∈ trees, ∀ d ∈ tree.types, d.Formed := by
  unfold FileTree.build at h
  obtain ⟨scope, -, hmap⟩ := Except.exists_of_bind h
  refine Except.forall_of_mapM ?_ hmap
  intro target _ tree htree
  split at htree
  · cases htree
  · exact FileTree.ofFile_formed htree

/-- Every message of resolved files, at any depth, is well formed. -/
theorem FileTree.formed_of_walk {files : List FileDescriptor} {targets : List String}
    {language : Language} {trees : List FileTree}
    (h : FileTree.build files targets language = .ok trees) :
    ∀ tree ∈ trees, ∀ d ∈ tree.walk, ∀ decl, d.asMessage = some decl → decl.Formed := by
  intro tree htree d hd decl hdecl
  obtain ⟨top, htop, hd⟩ := Decl.mem_walkAll.1 hd
  exact FileTree.build_formed h tree htree top htop d hd decl hdecl

/-- A file that is resolved is one whose tree has the parts that were computed of it. -/
theorem FileTree.exists_of_map_build {α : Type} {files : List FileDescriptor}
    {targets : List String} {language : Language} {part : FileTree → α} {a : α}
    (h : (FileTree.build files targets language).map (List.map part) = .ok [a]) :
    ∃ tree, FileTree.build files targets language = .ok [tree] ∧ part tree = a := by
  cases hbuild : FileTree.build files targets language with
  | error e =>
    rw [hbuild] at h
    cases h
  | ok trees =>
    rw [hbuild] at h
    obtain ⟨tree, rfl, htree⟩ := List.map_eq_singleton_iff.1 (Except.ok.inj h)
    exact ⟨tree, rfl, htree⟩

/-- Every message that a codec of resolved files knows is well formed. -/
theorem Codec.formed_of_build {files : List FileDescriptor} {targets : List String}
    {language : Language} {trees : List FileTree}
    (h : FileTree.build files targets language = .ok trees) (options : Options) :
    ∀ decl ∈ (Codec.ofTrees trees options).messages, decl.Formed := by
  intro decl hdecl
  obtain ⟨d, hd, hm⟩ := List.mem_filterMap.1 hdecl
  obtain ⟨tree, htree, hd⟩ := List.mem_flatMap.1 (List.mem_reverse.1 hd)
  exact FileTree.formed_of_walk h tree htree d hd decl hm

/-- The codecs of files that can be resolved. -/
inductive Codec.Resolved : Codec → Prop
  | intro {files : List FileDescriptor} {targets : List String} {language : Language}
      {trees : List FileTree} (build : FileTree.build files targets language = .ok trees)
      (options : Options) : Codec.Resolved (Codec.ofTrees trees options)

theorem Codec.resolved_of_build (files : List FileDescriptor) (targets : List String)
    (language : Language) (options : Options) {codec : Codec}
    (h : (FileTree.build files targets language).map (ofTrees · options) = .ok codec) :
    codec.Resolved := by
  cases hbuild : FileTree.build files targets language with
  | error e =>
    rw [hbuild] at h
    cases h
  | ok trees =>
    rw [hbuild] at h
    cases h
    exact .intro hbuild options

end ProtoStub
