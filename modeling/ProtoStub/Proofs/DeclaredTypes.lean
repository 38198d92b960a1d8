import Mathlib
import ProtoStub.Proofs.Acceptance
import ProtoStub.Proofs.LocalNames

/-!
# The tree of a file and the list of declarations

The declarations of a schema are collected twice: the scope lists them to resolve names, and the
tree of a file holds them with what they are made of. Both go through the descriptors on their own
and build full names and paths on the way. This file shows that they agree: what a walk over the
tree visits are the entries of the list for that file (`map_walk_of_ofFile`), and a reference
leads to exactly one declaration of the tree, which has the path that the reference spells
(`walk_eq_declarations`).
-/

namespace ProtoStub

/-! ## Declarations as references -/

namespace Decl

/-- What a declaration declares. -/
def kind : Decl → DeclKind
  | enum _ => .enum
  | message _ _ => .message

/-- The dotted path of a declaration within its package. -/
def shortName : Decl → String
  | enum e => e.shortName
  | message m _ => m.shortName

/-- The reference to a declaration from its own file. -/
def toRef (file package : String) (d : Decl) : TypeRef :=
  { fqName := d.fqName, file := file, package := package, shortName := d.shortName
    kind := d.kind, localName := d.shortName }

theorem walkAll_eq_flatMap (ds : List Decl) : walkAll ds = ds.flatMap walk := by
  induction ds with
  | nil => rfl
  | cons d rest ih => rw [walkAll, ih, List.flatMap_cons]

theorem walkAll_append (ds ds' : List Decl) : walkAll (ds ++ ds') = walkAll ds ++ walkAll ds' := by
  simp only [walkAll_eq_flatMap, List.flatMap_append]

end Decl

/-! ## Results of constructions -/

/-- What a construction can result in, whatever was imported before. -/
def Build.Gives {α : Type} (x : Build α) (a : α) : Prop :=
  ∃ s s', x.run s = .ok (a, s')

namespace Build.Gives

variable {α β : Type}

theorem of_pure {a b : α} (h : Gives (pure a) b) : a = b := by
  obtain ⟨s, s', h⟩ := h
  exact Build.eq_of_pure h

theorem of_lift {x : Except Error α} {a : α} (h : Gives (liftM x) a) : x = .ok a := by
  obtain ⟨s, s', h⟩ := h
  exact Build.eq_ok_of_lift h

theorem of_bind {x : Build α} {f : α → Build β} {b : β} (h : Gives (x >>= f) b) :
    ∃ a, x.Gives a ∧ (f a).Gives b := by
  obtain ⟨s, s', h⟩ := h
  obtain ⟨a, t, ha, hb⟩ := Build.exists_of_bind h
  exact ⟨a, ⟨s, t, ha⟩, ⟨t, s', hb⟩⟩

theorem of_map {x : Build α} {f : α → β} {b : β} (h : Gives (f <$> x) b) :
    ∃ a, x.Gives a ∧ f a = b := by
  rw [map_eq_pure_bind] at h
  obtain ⟨a, ha, h⟩ := h.of_bind
  exact ⟨a, ha, h.of_pure⟩

theorem of_mapM {f : α → Build β} {xs : List α} {bs : List β} (h : Gives (xs.mapM f) bs) :
    List.Forall₂ (fun x b => (f x).Gives b) xs bs := by
  induction xs generalizing bs with
  | nil =>
    rw [List.mapM_nil] at h
    obtain rfl := h.of_pure
    exact .nil
  | cons x xs ih =>
    rw [List.mapM_cons] at h
    obtain ⟨b, hb, h⟩ := h.of_bind
    obtain ⟨rest, hrest, h⟩ := h.of_bind
    obtain rfl := h.of_pure
    exact .cons hb (ih hrest)

theorem of_mapM_zipIdx {f : α × Nat → Build β} {xs : List α} {bs : List β}
    (h : Gives (xs.zipIdx.mapM f) bs) :
    List.Forall₂ (fun x b => ∃ i, (f (x, i)).Gives b) xs bs := by
  have hfst : xs.zipIdx.map Prod.fst = xs := List.zipIdx_map_fst 0 xs
  rw [← hfst, List.forall₂_map_left_iff]
  exact h.of_mapM.imp fun p _ hgives => ⟨p.2, hgives⟩

theorem exists_of_mapM_zipIdx {f : α × Nat → Build β} {xs : List α} {bs : List β}
    (h : Gives (xs.zipIdx.mapM f) bs) : ∀ b ∈ bs, ∃ x ∈ xs, ∃ i, (f (x, i)).Gives b :=
  exists_of_forall₂ h.of_mapM_zipIdx

end Build.Gives

namespace FileContext

variable {ctx : FileContext}

/-- The parts of a resolved message. -/
structure MadeOf (ctx : FileContext) (namePath : String) (m : MessageDescriptor)
    (decl : MessageDecl) (enums messages : List Decl) : Prop where
  name : decl.name = m.name
  isMapEntry : decl.isMapEntry = m.isMapEntry
  fqName : decl.fqName = namePath ++ m.name
  shortName : decl.shortName = ProtoStub.shortName (namePath ++ m.name) ctx.package
  enumDecls : ∃ path, enums = ctx.enumDecls (namePath ++ m.name ++ ".") path 4 m.enums
  nested : List.Forall₂ (fun inner d => ∃ path,
    (ctx.message (namePath ++ m.name ++ ".") path inner).Gives d) m.nested messages
  fields : List.Forall₂ (fun f field => ∃ comment,
    (ctx.field (namePath ++ m.name) m.oneofs (enums ++ messages) comment f).Gives field)
      m.fields decl.fields

theorem forall₂_of_messages {namePath : String} {path : List Int32} {sort : Int32} {index : Nat}
    {ms : List MessageDescriptor} {ds : List Decl}
    (h : (ctx.messages namePath path sort index ms).Gives ds) :
    List.Forall₂ (fun m d => ∃ path, (ctx.message namePath path m).Gives d) ms ds := by
  induction ms generalizing index ds with
  | nil =>
    unfold FileContext.messages at h
    obtain rfl := h.of_pure
    exact .nil
  | cons m rest ih =>
    unfold FileContext.messages at h
    obtain ⟨decl, hdecl, h⟩ := h.of_bind
    obtain ⟨decls, hdecls, h⟩ := h.of_bind
    obtain rfl := h.of_pure
    exact .cons ⟨_, hdecl⟩ (ih hdecls)

theorem exists_of_message {namePath : String} {path : List Int32} {m : MessageDescriptor} {d : Decl}
    (h : (ctx.message namePath path m).Gives d) :
    ∃ decl enums messages, ctx.MadeOf namePath m decl enums messages ∧
      d = .message decl (enums ++ messages) := by
  obtain ⟨name, fields, extensionFields, nested, enums, oneofs, isMapEntry⟩ := m
  unfold FileContext.message at h
  obtain ⟨-, -, h⟩ := h.of_bind
  obtain ⟨messages, hmessages, h⟩ := h.of_bind
  simp only at h
  obtain ⟨results, hresults, h⟩ := h.of_bind
  have hfields := hresults.of_mapM_zipIdx
  have hresult : ∃ decl : MessageDecl, decl.name = name ∧ decl.isMapEntry = isMapEntry ∧
      decl.fqName = namePath ++ name ∧
      decl.shortName = ProtoStub.shortName (namePath ++ name) ctx.package ∧
      decl.fields = results ∧ d = .message decl
        (ctx.enumDecls (namePath ++ name ++ ".") path 4 enums ++ messages) := by
    cases isMapEntry with
    | true =>
      obtain ⟨-, -, h⟩ := h.of_bind
      obtain rfl := h.of_pure
      exact ⟨_, rfl, rfl, rfl, rfl, rfl, rfl⟩
    | false =>
      obtain rfl := h.of_pure
      exact ⟨_, rfl, rfl, rfl, rfl, rfl, rfl⟩
  obtain ⟨decl, hname, hisMapEntry, hfqName, hshortName, rfl, rfl⟩ := hresult
  refine ⟨decl, _, messages, ⟨hname, hisMapEntry, hfqName, hshortName, ⟨path, rfl⟩,
    forall₂_of_messages hmessages, ?_⟩, rfl⟩
  refine hfields.imp fun f field hgives => ?_
  obtain ⟨i, hgives⟩ := hgives
  exact ⟨_, hgives⟩

/-- Every message that a resolved message holds, at any depth, is made of one that its descriptor
contains. -/
theorem exists_madeOf_of_message (m : MessageDescriptor) : ∀ namePath path d,
    (ctx.message namePath path m).Gives d →
      ∀ d' ∈ d.walk, ∀ decl, d'.asMessage = some decl → ∃ partPath part enums messages,
        m.Contains namePath decl.fqName part ∧ ctx.MadeOf partPath part decl enums messages := by
  refine MessageDescriptor.induct (fun m ih namePath path d h => ?_) m
  obtain ⟨decl, enums, messages, hmade, rfl⟩ := exists_of_message h
  intro d' hd' decl' hdecl'
  rw [Decl.walk, List.mem_cons] at hd'
  rcases hd' with rfl | hd'
  · cases hdecl'
    refine ⟨namePath, m, enums, messages, ?_, hmade⟩
    rw [hmade.fqName]
    exact .self
  · obtain ⟨child, hchild, hwalk⟩ := Decl.mem_walkAll.1 hd'
    rcases List.mem_append.1 hchild with hchild | hchild
    · obtain ⟨enumPath, rfl⟩ := hmade.enumDecls
      rw [asMessage_of_enumDecls hchild hwalk] at hdecl'
      cases hdecl'
    · obtain ⟨inner, hinner, path', hgives⟩ := exists_of_forall₂ hmade.nested child hchild
      obtain ⟨partPath, part, enums', messages', hpart, hmade'⟩ :=
        ih inner hinner _ path' child hgives d' hwalk decl' hdecl'
      exact ⟨partPath, part, enums', messages', .nested hinner hpart, hmade'⟩

/-! ## Both traversals -/

theorem map_walkAll_enumDecls (namePath : String) (path : List Int32) (sort : Int32)
    (enums : List EnumDescriptor) :
    (Decl.walkAll (ctx.enumDecls namePath path sort enums)).map (Decl.toRef ctx.file ctx.package) =
      (Declaration.ofEnums ctx.file ctx.package namePath enums).map Declaration.toRef := by
  have hfst : enums = enums.zipIdx.map Prod.fst := (List.zipIdx_map_fst 0 enums).symm
  conv_rhs => rw [hfst]
  rw [Decl.walkAll_eq_flatMap, enumDecls, Declaration.ofEnums, List.flatMap_map, List.map_flatMap,
    List.map_map, List.map_map, List.map_eq_flatMap]
  rfl

theorem map_walkAll_of_nested {namePath : String} {ms : List MessageDescriptor} {ds : List Decl}
    (ih : ∀ m ∈ ms, ∀ path d, (ctx.message namePath path m).Gives d →
      d.walk.map (Decl.toRef ctx.file ctx.package) =
        (Declaration.ofMessage ctx.file ctx.package namePath m).map Declaration.toRef)
    (h : List.Forall₂ (fun m d => ∃ path, (ctx.message namePath path m).Gives d) ms ds) :
    (Decl.walkAll ds).map (Decl.toRef ctx.file ctx.package) =
      (Declaration.ofMessages ctx.file ctx.package namePath ms).map Declaration.toRef := by
  induction h with
  | nil => simp [Decl.walkAll, Declaration.ofMessages]
  | @cons m d ms ds hd _ ihrest =>
    obtain ⟨path, hd⟩ := hd
    rw [List.forall_mem_cons] at ih
    rw [Decl.walkAll, Declaration.ofMessages, List.map_append, List.map_append, ih.1 path d hd,
      ihrest ih.2]

/-- A resolved message holds what the list of declarations has for it, in the same order. -/
theorem map_walk_of_message (m : MessageDescriptor) : ∀ namePath path d,
    (ctx.message namePath path m).Gives d →
      d.walk.map (Decl.toRef ctx.file ctx.package) =
        (Declaration.ofMessage ctx.file ctx.package namePath m).map Declaration.toRef := by
  refine MessageDescriptor.induct (fun m ih namePath path d h => ?_) m
  obtain ⟨decl, enums, messages, hmade, rfl⟩ := exists_of_message h
  obtain ⟨enumPath, henums⟩ := hmade.enumDecls
  have hself : (Decl.message decl (enums ++ messages)).toRef ctx.file ctx.package =
      Declaration.toRef ⟨namePath ++ m.name, ctx.file, ctx.package, .message⟩ := by
    simp only [Decl.toRef, Declaration.toRef, Decl.fqName, Decl.shortName, hmade.fqName,
      hmade.shortName]
    rfl
  have hnested := map_walkAll_of_nested (fun inner hinner => ih inner hinner _) hmade.nested
  rw [Decl.walk, List.map_cons, hself, Decl.walkAll_append, List.map_append, hnested, henums,
    map_walkAll_enumDecls]
  cases m
  rw [Declaration.ofMessage, List.map_cons, List.map_append]

end FileContext

namespace FileTree

/-- The parts of a resolved file. -/
structure MadeOf (tree : FileTree) (file : FileDescriptor) (ctx : FileContext)
    (messages : List Decl) : Prop where
  name : tree.name = file.fileName
  package : tree.package = file.package
  context : ctx.file = file.fileName ∧ ctx.package = file.package
  types : tree.types = ctx.enumDecls file.namePath [] 5 file.enums ++ messages
  given : List.Forall₂ (fun m d => ∃ path, (ctx.message file.namePath path m).Gives d)
    file.messages messages
  services : ∀ service ∈ tree.services, ∃ s ∈ file.services, ∃ path,
    (ctx.service path s).Gives service

theorem exists_of_ofFile {scope : Scope} {language : Language} {file : FileDescriptor}
    {tree : FileTree} (h : ofFile scope language file = .ok tree) :
    ∃ ctx messages, tree.MadeOf file ctx messages ∧ ctx.scope = scope := by
  unfold FileTree.ofFile at h
  obtain ⟨dialect, -, h⟩ := Except.exists_of_bind h
  obtain ⟨-, -, h⟩ := Except.exists_of_bind h
  obtain ⟨⟨⟨messages, services⟩, imports⟩, hrun, h⟩ := Except.exists_of_bind h
  have hgives : Build.Gives _ (messages, services) := ⟨_, _, hrun⟩
  obtain ⟨messages', hmessages, hgives⟩ := hgives.of_bind
  obtain ⟨services', hservices, hgives⟩ := hgives.of_bind
  cases hgives.of_pure
  cases h
  refine ⟨_, messages, ⟨rfl, rfl, ⟨rfl, rfl⟩, rfl, FileContext.forall₂_of_messages hmessages, ?_⟩,
    rfl⟩
  intro service hservice
  obtain ⟨s, hs, i, hgives⟩ := hservices.exists_of_mapM_zipIdx service hservice
  exact ⟨s, hs, _, hgives⟩

/-- Every message of resolved files, at any depth, is made of one that its file declares. -/
theorem exists_madeOf_of_build {files : List FileDescriptor} {targets : List String}
    {language : Language} {trees : List FileTree}
    (h : FileTree.build files targets language = .ok trees) :
    ∀ tree ∈ trees, ∀ d ∈ tree.walk, ∀ decl, d.asMessage = some decl →
      ∃ file ∈ files, file.fileName = tree.name ∧ ∃ top ∈ file.messages,
        ∃ (ctx : FileContext) (partPath : String) (part : MessageDescriptor)
          (enums messages : List Decl), top.Contains file.namePath decl.fqName part ∧
          ctx.MadeOf partPath part decl enums messages := by
  unfold FileTree.build at h
  obtain ⟨scope, -, hmap⟩ := Except.exists_of_bind h
  refine Except.forall_of_mapM ?_ hmap
  intro target _ tree htree
  split at htree
  · cases htree
  next file hfile =>
    obtain ⟨ctx, messages, hmade, -⟩ := exists_of_ofFile htree
    intro d hd decl hdecl
    refine ⟨file, List.mem_of_find?_eq_some hfile, hmade.name.symm, ?_⟩
    rw [FileTree.walk, hmade.types] at hd
    obtain ⟨top, htop, hd⟩ := Decl.mem_walkAll.1 hd
    rcases List.mem_append.1 htop with htop | htop
    · rw [FileContext.asMessage_of_enumDecls htop hd] at hdecl
      cases hdecl
    · obtain ⟨m, hm, path, hgives⟩ := exists_of_forall₂ hmade.given top htop
      exact ⟨m, hm, ctx, FileContext.exists_madeOf_of_message m _ path top hgives d hd decl hdecl⟩

/-- The declarations of a resolved file are those that the list of declarations has for it. -/
theorem map_walk_of_ofFile {scope : Scope} {language : Language} {file : FileDescriptor}
    {tree : FileTree} (h : ofFile scope language file = .ok tree) :
    tree.walk.map (Decl.toRef tree.name tree.package) =
      (Declaration.ofFile file).map Declaration.toRef := by
  obtain ⟨ctx, messages, hmade, -⟩ := exists_of_ofFile h
  obtain ⟨hfile, hpackage⟩ := hmade.context
  have hmessages := FileContext.map_walkAll_of_nested
    (fun m _ => FileContext.map_walk_of_message m file.namePath) hmade.given
  rw [FileTree.walk, hmade.types, hmade.name, hmade.package, ← hfile, ← hpackage,
    Decl.walkAll_append, List.map_append, hmessages, FileContext.map_walkAll_enumDecls,
    Declaration.ofFile, List.map_append, ← hfile, ← hpackage]

end FileTree

/-! ## Where references come from -/

/-- The kinds of a field, and of the key and the value if it is a map. -/
def Field.kinds : Field → List FieldKind
  | plain info => [info.kind]
  | map info key value => info.kind :: (key.kinds ++ value.kinds)

theorem Field.references_eq (field : Field) :
    field.references = field.kinds.flatMap (·.target?.toList) := by
  induction field with
  | plain info => simp [references, kinds]
  | map info key value ihkey ihvalue => simp [references, kinds, ihkey, ihvalue]

/-- The fields of a declaration and of everything nested in it have only kinds with a property. -/
def Decl.HasKinds (K : FieldKind → Prop) (d : Decl) : Prop :=
  ∀ d' ∈ d.walk, ∀ m, d'.asMessage = some m → ∀ field ∈ m.fields, ∀ kind ∈ field.kinds, K kind

namespace MessageDecl

theorem kinds_entryField {field result : Field} (h : entryField field = .ok result) :
    result.kinds = field.kinds := by
  unfold entryField at h
  obtain ⟨shape, -, h⟩ := Except.exists_of_bind h
  cases h
  cases field <;> rfl

/-- The kinds of the key and the value of a map are those of the fields of its entry. -/
theorem kinds_keyAndValue {entry : MessageDecl} {key value : Field}
    (h : entry.keyAndValue = .ok (key, value)) :
    key.kinds ++ value.kinds = entry.fields.flatMap Field.kinds := by
  unfold keyAndValue at h
  split at h
  next k v hfields =>
    obtain ⟨key', hkey, h⟩ := Except.exists_of_bind h
    obtain ⟨value', hvalue, h⟩ := Except.exists_of_bind h
    cases h
    rw [hfields, kinds_entryField hkey, kinds_entryField hvalue]
    simp
  · cases h

end MessageDecl

/-- A reference to what a name means in a file. -/
def Scope.Refers (scope : Scope) (file name : String) (ref : TypeRef) : Prop :=
  ∃ found root, scope.resolve name file = .ok found ∧ ref = found.bindRoot root

/-- The kinds that a field of a file may get. -/
inductive FieldDescriptor.Denotes (scope : Scope) (file : String) (f : FieldDescriptor) :
    FieldKind → Prop
  | message {target : TypeRef} (type : f.type = .message)
      (refers : scope.Refers file f.typeName target) : Denotes scope file f (.message target)
  | enum {target : TypeRef} (type : f.type = .enum)
      (refers : scope.Refers file f.typeName target) : Denotes scope file f (.enum target)
  | scalar {kind : FieldKind} (noTarget : kind.target? = none) : Denotes scope file f kind

namespace FileContext

variable {ctx : FileContext} {K : FieldKind → Prop}

theorem refers_of_resolve {name : String} {ref : TypeRef} (h : (ctx.resolve name).Gives ref) :
    ctx.scope.Refers ctx.file name ref := by
  unfold FileContext.resolve at h
  obtain ⟨found, hfound, h⟩ := h.of_bind
  obtain ⟨s, s', h⟩ := h
  cases h
  exact ⟨found, _, hfound.of_lift, rfl⟩

theorem denotes_of_ofType {f : FieldDescriptor} {kind : FieldKind}
    (h : (FieldKind.ofType (ctx.resolve f.typeName) f.type).Gives kind) :
    f.Denotes ctx.scope ctx.file kind := by
  cases htype : f.type with
  | message =>
    rw [htype] at h
    obtain ⟨target, htarget, rfl⟩ := Build.Gives.of_map h
    exact .message htype (refers_of_resolve htarget)
  | enum =>
    rw [htype] at h
    obtain ⟨target, htarget, rfl⟩ := Build.Gives.of_map h
    exact .enum htype (refers_of_resolve htarget)
  | _ =>
    rw [htype] at h
    obtain rfl := Build.Gives.of_pure h
    exact .scalar rfl

theorem kinds_of_field {messageName : String} {oneofs : List String} {nested : List Decl}
    {comment : Option String} {f : FieldDescriptor} {result : Field}
    (hf : ∀ kind, f.Denotes ctx.scope ctx.file kind → K kind)
    (hnested : ∀ d ∈ nested, d.HasKinds K)
    (h : (ctx.field messageName oneofs nested comment f).Gives result) :
    ∀ kind ∈ result.kinds, K kind := by
  obtain ⟨before, after, h⟩ := h
  obtain ⟨kind, t, shape, hkind, -, hresult⟩ := exists_of_field h
  have hdenotes := denotes_of_ofType ⟨before, t, hkind⟩
  rcases hresult with rfl | ⟨entry, key, value, hentry, -, hpair, rfl⟩
  · simpa [Field.kinds, fieldInfo] using hf kind hdenotes
  · obtain ⟨children, hmem, -⟩ := mapEntryOf?_eq_some hentry
    rw [Field.kinds, MessageDecl.kinds_keyAndValue hpair, List.forall_mem_cons]
    refine ⟨hf kind hdenotes, fun inner hinner => ?_⟩
    obtain ⟨field, hfield, hinner⟩ := List.mem_flatMap.1 hinner
    exact hnested _ hmem _ List.mem_cons_self entry rfl field hfield inner hinner

theorem hasKinds_of_enumDecls (namePath : String) (path : List Int32) (sort : Int32)
    (enums : List EnumDescriptor) : ∀ d ∈ ctx.enumDecls namePath path sort enums, d.HasKinds K := by
  intro d hd d' hd' m hm
  rw [asMessage_of_enumDecls hd hd'] at hm
  cases hm

/-- The fields of a resolved message and of what is nested in it have the kinds that their
descriptors denote. -/
theorem hasKinds_of_message (m : MessageDescriptor) : ∀ namePath path d,
    (∀ fqName part, m.Contains namePath fqName part →
      ∀ f ∈ part.fields, ∀ kind, f.Denotes ctx.scope ctx.file kind → K kind) →
    (ctx.message namePath path m).Gives d → d.HasKinds K := by
  refine MessageDescriptor.induct (fun m ih namePath path d hK h => ?_) m
  rw [MessageDescriptor.forall_contains] at hK
  obtain ⟨decl, enums, messages, hmade, rfl⟩ := exists_of_message h
  obtain ⟨enumPath, henums⟩ := hmade.enumDecls
  have hchildren : ∀ d ∈ enums ++ messages, d.HasKinds K := by
    rw [List.forall_mem_append, henums]
    refine ⟨hasKinds_of_enumDecls _ _ _ _, fun d hd => ?_⟩
    obtain ⟨inner, hinner, path, hgives⟩ := exists_of_forall₂ hmade.nested d hd
    exact ih inner hinner _ path d (hK.2 inner hinner) hgives
  intro d hd m' hm'
  rw [Decl.walk] at hd
  rcases List.mem_cons.1 hd with rfl | hd
  · cases hm'
    intro field hfield
    obtain ⟨f, hf, comment, hgives⟩ := exists_of_forall₂ hmade.fields field hfield
    exact kinds_of_field (hK.1 f hf) hchildren hgives
  · obtain ⟨child, hchild, hd⟩ := Decl.mem_walkAll.1 hd
    exact hchildren child hchild d hd m' hm'

theorem refers_of_method {serviceName : String} {comment : Option String} {m : MethodDescriptor}
    {method : MethodDecl} (h : (ctx.method serviceName comment m).Gives method) :
    ctx.scope.Refers ctx.file m.inputType method.input ∧
      ctx.scope.Refers ctx.file m.outputType method.output := by
  unfold FileContext.method at h
  split at h
  · obtain ⟨_, ⟨_, _, ⟨⟩⟩, -⟩ := h.of_bind
  · obtain ⟨input, hinput, h⟩ := h.of_bind
    obtain ⟨output, houtput, h⟩ := h.of_bind
    obtain rfl := h.of_pure
    exact ⟨refers_of_resolve hinput, refers_of_resolve houtput⟩

theorem refers_of_service {path : List Int32} {s : ServiceDescriptor} {service : ServiceDecl}
    (h : (ctx.service path s).Gives service) :
    ∀ ref ∈ service.references, ∃ name, ctx.scope.Refers ctx.file name ref := by
  unfold FileContext.service at h
  obtain ⟨methods, hmethods, h⟩ := h.of_bind
  obtain rfl := h.of_pure
  intro ref href
  obtain ⟨method, hmethod, href⟩ := List.mem_flatMap.1 href
  obtain ⟨m, -, i, hgives⟩ := hmethods.exists_of_mapM_zipIdx method hmethod
  obtain ⟨hinput, houtput⟩ := refers_of_method hgives
  rw [List.mem_pair] at href
  rcases href with rfl | rfl
  · exact ⟨m.inputType, hinput⟩
  · exact ⟨m.outputType, houtput⟩

end FileContext

namespace FileTree

/-- The fields of a resolved file have the kinds that their descriptors denote. -/
theorem hasKinds_of_ofFile {scope : Scope} {language : Language} {file : FileDescriptor}
    {tree : FileTree} (h : ofFile scope language file = .ok tree) {K : FieldKind → Prop}
    (hK : ∀ top ∈ file.messages, ∀ fqName part, top.Contains file.namePath fqName part →
      ∀ f ∈ part.fields, ∀ kind, f.Denotes scope file.fileName kind → K kind) :
    ∀ d ∈ tree.types, d.HasKinds K := by
  obtain ⟨ctx, messages, hmade, rfl⟩ := exists_of_ofFile h
  rw [← hmade.context.1] at hK
  rw [hmade.types, List.forall_mem_append]
  refine ⟨FileContext.hasKinds_of_enumDecls _ _ _ _, fun d hd => ?_⟩
  obtain ⟨m, hm, path, hgives⟩ := exists_of_forall₂ hmade.given d hd
  exact FileContext.hasKinds_of_message m _ path d (hK m hm) hgives

/-- Everything that a resolved file refers to is what some name means in it. -/
theorem refers_of_ofFile {scope : Scope} {language : Language} {file : FileDescriptor}
    {tree : FileTree} (h : ofFile scope language file = .ok tree) :
    ∀ ref ∈ tree.references, ∃ name, scope.Refers file.fileName name ref := by
  have hkinds := hasKinds_of_ofFile h
    (K := fun kind => ∀ ref ∈ kind.target?, ∃ name, scope.Refers file.fileName name ref) ?_
  · intro ref href
    rcases List.mem_append.1 href with href | href
    · obtain ⟨d, hd, href⟩ := List.mem_flatMap.1 href
      obtain ⟨top, htop, hd⟩ := Decl.mem_walkAll.1 hd
      cases d with
      | enum e => exact absurd href List.not_mem_nil
      | message m children =>
        obtain ⟨field, hfield, href⟩ := List.mem_flatMap.1 href
        rw [Field.references_eq] at href
        obtain ⟨kind, hkind, href⟩ := List.mem_flatMap.1 href
        exact hkinds top htop _ hd m rfl field hfield kind hkind ref (Option.mem_toList.1 href)
    · obtain ⟨service, hservice, href⟩ := List.mem_flatMap.1 href
      obtain ⟨ctx, messages, hmade, rfl⟩ := exists_of_ofFile h
      obtain ⟨s, -, path, hgives⟩ := hmade.services service hservice
      rw [← hmade.context.1]
      exact FileContext.refers_of_service hgives ref href
  · intro top _ fqName part _ f _ kind hkind ref href
    cases hkind with
    | message _ hrefers =>
      cases href
      exact ⟨f.typeName, hrefers⟩
    | enum _ hrefers =>
      cases href
      exact ⟨f.typeName, hrefers⟩
    | scalar hnone =>
      rw [hnone] at href
      cases href

end FileTree

/-! ## References lead to declarations -/

/-- What a name resolves to is the only declaration of its full name in its file. -/
theorem Scope.filter_of_resolve {scope : Scope} {name file : String} {ref : TypeRef}
    (h : scope.resolve name file = .ok ref) :
    ∃ d, (scope.declarations.filter (·.file = ref.file)).filter (·.fqName = ref.fqName) = [d] ∧
      ref = d.toRef := by
  unfold Scope.resolve at h
  cases hindex : scope.fileIndex? file with
  | none =>
    rw [hindex] at h
    cases h
  | some index => ?_
  simp only [hindex] at h
  split at h
  · cases h
  next d hfound =>
    cases h
    refine ⟨d, ?_, rfl⟩
    have hd : d ∈ scope.candidates (scope.visible index) (Text.withoutDot name) := by
      rw [hfound]
      exact List.mem_singleton_self d
    rw [candidates, List.mem_filter, lookup, List.mem_filter, decide_eq_true_eq] at hd
    -- Whether a declaration can be seen hangs on its file only.
    have hfilter : (scope.declarations.filter (·.file = d.file)).filter (·.fqName = d.fqName) =
        (scope.candidates (scope.visible index) (Text.withoutDot name)).filter
          (·.file = d.file) := by
      rw [candidates, lookup, List.filter_filter, List.filter_filter, List.filter_filter]
      refine List.filter_congr fun e _ => ?_
      by_cases hfile : e.file = d.file
      · simp [hfile, hd.1.2, hd.2]
      · simp [hfile]
    exact hfilter.trans (by simp [hfound])
  · cases h

/-- A reference to the one declaration of its full name in a file, by the kind and the path that
the declaration has there. -/
def FileTree.DeclaresOne (tree : FileTree) (ref : TypeRef) : Prop :=
  ∃ d, tree.walk.filter (·.fqName = ref.fqName) = [d] ∧ d.kind = ref.kind ∧
    d.shortName = ref.shortName

theorem filter_declarations {files : List FileDescriptor} {file : FileDescriptor}
    (h : DistinctFiles files) (hfile : file ∈ files) :
    (Scope.ofDistinct files).declarations.filter (·.file = file.fileName) =
      Declaration.ofFile file := by
  have hkept : (Declaration.ofFile file).filter (·.file = file.fileName) =
      Declaration.ofFile file := by
    rw [List.filter_eq_self]
    exact fun d hd => decide_eq_true (Declaration.file_of_mem_ofFile hd)
  have hdropped : ∀ others : List FileDescriptor, (∀ g ∈ others, g.fileName ≠ file.fileName) →
      (others.flatMap Declaration.ofFile).filter (·.file = file.fileName) = [] := by
    intro others hothers
    rw [List.filter_eq_nil_iff]
    intro d hd
    obtain ⟨g, hg, hd⟩ := List.mem_flatMap.1 hd
    rw [decide_eq_true_eq, Declaration.file_of_mem_ofFile hd]
    exact hothers g hg
  obtain ⟨before, after, rfl⟩ := List.append_of_mem hfile
  have hdistinct := h.distinct
  rw [List.map_append, List.map_cons, List.nodup_append, List.nodup_cons] at hdistinct
  obtain ⟨-, ⟨hafter, -⟩, hbefore⟩ := hdistinct
  rw [Scope.ofDistinct, List.flatMap_append, List.flatMap_cons, List.filter_append,
    List.filter_append, hkept, hdropped before, hdropped after, List.nil_append, List.append_nil]
  · intro g hg heq
    exact hafter (List.mem_map.2 ⟨g, hg, heq⟩)
  · intro g hg
    exact hbefore _ (List.mem_map_of_mem hg) _ List.mem_cons_self

section

variable {files : List FileDescriptor} {targets : List String} {language : Language}
  {trees : List FileTree} {tree : FileTree}

theorem map_walk_of_build (h : DistinctFiles files)
    (hbuild : FileTree.build files targets language = .ok trees) (htree : tree ∈ trees) :
    tree.walk.map (Decl.toRef tree.name tree.package) =
      ((Scope.ofDistinct files).declarations.filter (·.file = tree.name)).map
        Declaration.toRef := by
  obtain ⟨file, hfile, hok⟩ := FileTree.exists_of_build h hbuild tree htree
  obtain ⟨ctx, messages, hmade, -⟩ := FileTree.exists_of_ofFile hok
  rw [FileTree.map_walk_of_ofFile hok, hmade.name, filter_declarations h hfile]

/-- Whatever a name resolves to is declared once in the tree of its file. -/
theorem declaresOne_of_resolve (h : DistinctFiles files)
    (hbuild : FileTree.build files targets language = .ok trees) (htree : tree ∈ trees)
    {name file : String} {ref : TypeRef}
    (hresolve : (Scope.ofDistinct files).resolve name file = .ok ref)
    (hfile : ref.file = tree.name) : tree.DeclaresOne ref := by
  obtain ⟨d, hfilter, rfl⟩ := Scope.filter_of_resolve hresolve
  have hwalk := congrArg (List.filter (·.fqName = d.fqName)) (map_walk_of_build h hbuild htree)
  rw [List.filter_map, List.filter_map, ← hfile] at hwalk
  have hone : (tree.walk.filter (·.fqName = d.fqName)).map (Decl.toRef tree.name tree.package) =
      [d.toRef] := by
    rw [← hfile]
    exact hwalk.trans (congrArg (List.map Declaration.toRef) hfilter)
  obtain ⟨node, hnode, href⟩ := List.map_eq_singleton_iff.1 hone
  exact ⟨node, hnode, congrArg TypeRef.kind href, congrArg TypeRef.shortName href⟩

end

/-- The walk over a resolved file visits the declarations that the scope lists for the file, in the
same order. Whatever resolves to one of them, and whatever a resolved file refers to among them,
is visited once, by its kind, and under the path that the reference spells. -/
theorem walk_eq_declarations {files : List FileDescriptor} {targets : List String}
    {language : Language} {trees : List FileTree} {tree : FileTree} (h : DistinctFiles files)
    (hbuild : FileTree.build files targets language = .ok trees) (htree : tree ∈ trees) :
    ∃ scope, Scope.ofFiles files = .ok scope ∧
      tree.walk.map (fun d => (d.fqName, d.kind)) =
        (scope.declarations.filter (·.file = tree.name)).map (fun d => (d.fqName, d.kind)) ∧
      (∀ file name ref, scope.resolve name file = .ok ref → ref.file = tree.name →
        tree.DeclaresOne ref) ∧
      ∀ other ∈ trees, ∀ ref ∈ other.references, ref.file = tree.name → tree.DeclaresOne ref := by
  refine ⟨Scope.ofDistinct files, Scope.ofFiles_eq h, ?_, ?_, ?_⟩
  · have hwalk := congrArg (List.map fun ref => (ref.fqName, ref.kind))
      (map_walk_of_build h hbuild htree)
    rw [List.map_map, List.map_map] at hwalk
    exact hwalk
  · intro file name ref hresolve
    exact declaresOne_of_resolve h hbuild htree hresolve
  · intro other hother ref href hfile
    obtain ⟨file, -, hok⟩ := FileTree.exists_of_build h hbuild other hother
    obtain ⟨name, found, root, hresolve, rfl⟩ := FileTree.refers_of_ofFile hok ref href
    have hone : tree.DeclaresOne found := declaresOne_of_resolve h hbuild htree hresolve hfile
    exact hone

/-- A file with enums and messages at several depths, and one that refers to them. -/
def glade : List FileDescriptor :=
  [{ name := some "bark.proto", package := "wood"
     enums := [{ name := "Season" }]
     messages := [
      { name := "Leaf", enums := [{ name := "Side" }]
        nested := [{ name := "Vein", enums := [{ name := "Hue" }] }, { name := "Stem" }] },
      { name := "Root" }] },
    { name := some "glade.proto", package := "wood.glade", dependencies := ["bark.proto"]
      messages := [
        { name := "Glade"
          fields := [
            { name := "vein", number := 1, type := .message, typeName := ".wood.Leaf.Vein" },
            { name := "hue", number := 2, type := .enum, typeName := ".wood.Leaf.Vein.Hue" }] }] }]

theorem walk_eq_declarations_glade : DistinctFiles glade ∧
    ∃ bark own, FileTree.build glade ["bark.proto", "glade.proto"] .typeScript = .ok [bark, own] ∧
      bark.walk.map (fun d => (d.fqName, d.kind)) =
        [("wood.Season", .enum), ("wood.Leaf", .message), ("wood.Leaf.Side", .enum),
          ("wood.Leaf.Vein", .message), ("wood.Leaf.Vein.Hue", .enum), ("wood.Leaf.Stem", .message),
          ("wood.Root", .message)] ∧
      own.references.map (·.shortName) = ["Leaf.Vein", "Leaf.Vein.Hue"] ∧
      ∀ ref ∈ own.references, ref.file = bark.name → bark.DeclaresOne ref := by
  have h : DistinctFiles glade := ⟨by decide, by decide⟩
  have hwalks : (FileTree.build glade ["bark.proto", "glade.proto"] .typeScript).map
      (List.map fun tree => (tree.walk.map (fun d => (d.fqName, d.kind)),
        tree.references.map (·.shortName))) =
        .ok [([("wood.Season", .enum), ("wood.Leaf", .message), ("wood.Leaf.Side", .enum),
          ("wood.Leaf.Vein", .message), ("wood.Leaf.Vein.Hue", .enum), ("wood.Leaf.Stem", .message),
          ("wood.Root", .message)], []),
          ([("wood.glade.Glade", .message)], ["Leaf.Vein", "Leaf.Vein.Hue"])] := by
    cbv
  cases hbuild : FileTree.build glade ["bark.proto", "glade.proto"] .typeScript with
  | error e =>
    rw [hbuild] at hwalks
    cases hwalks
  | ok trees =>
    rw [hbuild] at hwalks
    obtain ⟨bark, rest, rfl, hbark, hrest⟩ := List.map_eq_cons_iff.1 (Except.ok.inj hwalks)
    obtain ⟨own, rfl, hown⟩ := List.map_eq_singleton_iff.1 hrest
    obtain ⟨scope, -, -, -, hreferences⟩ := walk_eq_declarations h hbuild List.mem_cons_self
    exact ⟨h, bark, own, rfl, congrArg Prod.fst hbark, congrArg Prod.snd hown,
      hreferences own (by simp)⟩

end ProtoStub
