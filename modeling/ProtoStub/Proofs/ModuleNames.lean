import Mathlib
import ProtoStub.Generate
import ProtoStub.Proofs.LocalNames

/-!
# The names of a module

A generated module binds names in three places: its declarations, the imports of types of other
files and the imports from the runtime library. The first two never clash, since the imports are
chosen among the names that are free. The names of the runtime library are not known to the table
of imports: a type of another file that is named like one of them, where the module needs both, is
imported under that very name, and this is the only clash there is (`moduleNames_nodup_iff`).

The imports of a file are what registering its references, one after the other, makes of the empty
table (`imports_eq_registerAll`), so that facts about a table come from a run over a list.
-/

namespace ProtoStub

theorem Except.eq_ok_of_mapM {ε α β : Type} {f : α → Except ε β} {xs : List α} {bs : List β}
    (h : xs.mapM f = .ok bs) {x : α} {b : β} (hmem : (x, b) ∈ xs.zip bs) : f x = .ok b := by
  induction xs generalizing bs with
  | nil => simp at hmem
  | cons x' xs ih =>
    rw [List.mapM_cons] at h
    obtain ⟨b', hb', h⟩ := Except.exists_of_bind h
    obtain ⟨bs', hbs', h⟩ := Except.exists_of_bind h
    cases h
    rcases List.mem_cons.1 hmem with heq | hmem
    · cases heq
      exact hb'
    · exact ih hbs' hmem

/-! ## Registering in a row -/

namespace ImportTable

/-- Registers types one after the other. -/
def registerAll (table : ImportTable) (refs : List TypeRef) : ImportTable :=
  refs.foldl (fun t ref => (t.register ref).2) table

theorem registerAll_append (table : ImportTable) (refs refs' : List TypeRef) :
    table.registerAll (refs ++ refs') = (table.registerAll refs).registerAll refs' :=
  List.foldl_append

theorem extends_registerAll (table : ImportTable) (refs : List TypeRef) :
    table.Extends (table.registerAll refs) := by
  induction refs generalizing table with
  | nil => exact .refl table
  | cons ref refs ih => exact (table.extends_register ref).trans (ih _)

theorem Sound.registerAll {table : ImportTable} (h : table.Sound) (refs : List TypeRef) :
    (table.registerAll refs).Sound := by
  induction refs generalizing table with
  | nil => exact h
  | cons ref refs ih => exact ih (h.register ref)

end ImportTable

/-- A step that does nothing to the imports but register types, in a row that stands in a relation
to its result. -/
def Build.Registers {α : Type} (x : Build α) (R : α → List TypeRef → Prop) : Prop :=
  ∀ s a s', x.run s = .ok (a, s') → ∃ refs, R a refs ∧ s' = s.registerAll refs

namespace Build.Registers

variable {α β : Type} {R : α → List TypeRef → Prop}

theorem pure {a : α} (h : R a []) : Registers (Pure.pure a) R := by
  intro s b s' hrun
  cases hrun
  exact ⟨[], h, rfl⟩

theorem lift {x : Except Error α} (h : ∀ a, x = .ok a → R a []) : Registers (liftM x) R := by
  intro s a s' hrun
  have hx := Build.eq_ok_of_lift hrun
  subst hx
  cases hrun
  exact ⟨[], h a rfl, rfl⟩

theorem throw {e : Error} {f : α → Build β} {T : β → List TypeRef → Prop} :
    Registers ((MonadExcept.throw e : Build α) >>= f) T := by
  intro s b s' hrun
  cases hrun

theorem bind {x : Build α} {f : α → Build β} {T : β → List TypeRef → Prop} (hx : Registers x R)
    (hf : ∀ a, Registers (f a) fun b later => ∀ earlier, R a earlier → T b (earlier ++ later)) :
    Registers (x >>= f) T := by
  intro s b s' hrun
  obtain ⟨a, t, ha, hb⟩ := Build.exists_of_bind hrun
  obtain ⟨earlier, hearlier, rfl⟩ := hx s a t ha
  obtain ⟨later, hlater, rfl⟩ := hf a _ b s' hb
  exact ⟨earlier ++ later, hlater earlier hearlier, (s.registerAll_append earlier later).symm⟩

theorem mapM {f : α → Build β} {refs : β → List TypeRef} {xs : List α}
    (hf : ∀ x, Registers (f x) fun b l => l = refs b) :
    Registers (xs.mapM f) fun bs l => l = bs.flatMap refs := by
  induction xs with
  | nil =>
    rw [List.mapM_nil]
    exact pure rfl
  | cons x xs ih =>
    rw [List.mapM_cons]
    refine (hf x).bind fun b => ih.bind fun bs => pure ?_
    rintro _ rfl _ rfl
    simp

theorem mapM_zipIdx {f : α × Nat → Build β} {refs : β → List TypeRef} {xs : List α}
    (hf : ∀ x i, Registers (f (x, i)) fun b l => l = refs b) :
    Registers (xs.zipIdx.mapM f) fun bs l => l = bs.flatMap refs :=
  mapM fun p => hf p.1 p.2

end Build.Registers

/-! ## The references of a file in the order of their imports -/

/-- The types that a field names itself; those of a map are named by the entry of the map. -/
def Field.requests (field : Field) : List TypeRef := field.info.kind.target?.toList

namespace Decl

mutual

/-- The types that the fields of a declaration name, those of nested declarations first. -/
def requests : Decl → List TypeRef
  | enum _ => []
  | message m children => requestsAll children ++ m.fields.flatMap Field.requests

/-- The types that the fields of several declarations name. -/
def requestsAll : List Decl → List TypeRef
  | [] => []
  | d :: rest => requests d ++ requestsAll rest

end

theorem requestsAll_eq_flatMap (ds : List Decl) : requestsAll ds = ds.flatMap requests := by
  induction ds with
  | nil => rfl
  | cons d ds ih => rw [requestsAll, ih, List.flatMap_cons]

end Decl

/-- The types that the fields and methods of a file name, in the order in which they are
imported. -/
def FileTree.requests (tree : FileTree) : List TypeRef :=
  tree.types.flatMap Decl.requests ++ tree.services.flatMap ServiceDecl.references

namespace FileContext

variable {ctx : FileContext}

theorem resolve_registers (name : String) :
    Build.Registers (ctx.resolve name) fun ref refs => refs = [ref] := by
  intro s a s' hrun
  unfold FileContext.resolve at hrun
  obtain ⟨ref, s₁, href, hrun⟩ := Build.exists_of_bind hrun
  have hresolve := Build.eq_ok_of_lift href
  rw [hresolve] at href
  cases href
  cases hrun
  -- the import of a type does not hang on its local name, so it may be registered with it
  exact ⟨_, rfl, rfl⟩

theorem ofType_registers (name : String) (type : FieldType) :
    Build.Registers (FieldKind.ofType (ctx.resolve name) type)
      fun kind refs => refs = kind.target?.toList := by
  cases type with
  | message | enum =>
    refine (resolve_registers name).bind fun ref => .pure ?_
    rintro _ rfl
    rfl
  | _ => exact .pure rfl

theorem asMap_kind {fieldName : String} {info : FieldInfo} {entry : MessageDecl} {result : Field}
    (h : asMap fieldName info entry = .ok result) : result.info.kind = info.kind := by
  unfold asMap at h
  split at h
  · obtain ⟨⟨key, value⟩, -, h⟩ := Except.exists_of_bind h
    cases h
    rfl
  · cases h

theorem field_registers (messageName : String) (oneofs : List String) (nested : List Decl)
    (comment : Option String) (field : FieldDescriptor) :
    Build.Registers (ctx.field messageName oneofs nested comment field)
      fun result refs => refs = result.requests := by
  unfold FileContext.field
  refine (ofType_registers field.typeName field.type).bind fun kind => ?_
  simp only
  split
  next shape hshape =>
    rw [pure_bind]
    split
    · refine .lift fun result hresult => ?_
      rintro _ rfl
      rw [List.append_nil, Field.requests, asMap_kind hresult]
      rfl
    · refine .pure ?_
      rintro _ rfl
      exact List.append_nil _
  · exact .throw

theorem messages_registers {messages : List MessageDescriptor}
    (hmessages : ∀ m ∈ messages, ∀ namePath path,
      Build.Registers (ctx.message namePath path m) fun d refs => refs = d.requests)
    (namePath : String) (path : List Int32) (sort : Int32) (index : Nat) :
    Build.Registers (ctx.messages namePath path sort index messages)
      fun ds refs => refs = ds.flatMap Decl.requests := by
  induction messages generalizing index with
  | nil =>
    unfold messages
    exact .pure rfl
  | cons m rest ih =>
    rw [List.forall_mem_cons] at hmessages
    unfold messages
    refine (hmessages.1 namePath _).bind fun d => (ih hmessages.2 (index + 1)).bind fun ds =>
      .pure ?_
    rintro _ rfl _ rfl
    simp

theorem requests_enumDecls (namePath : String) (path : List Int32) (sort : Int32)
    (enums : List EnumDescriptor) :
    (ctx.enumDecls namePath path sort enums).flatMap Decl.requests = [] := by
  rw [List.flatMap_eq_nil_iff]
  intro d hd
  obtain ⟨_, -, rfl⟩ := List.mem_map.1 hd
  rfl

theorem message_registers (m : MessageDescriptor) : ∀ namePath path,
    Build.Registers (ctx.message namePath path m) fun d refs => refs = d.requests := by
  induction m using MessageDescriptor.induct with
  | step m ih =>
    intro namePath path
    obtain ⟨name, fields, extensionFields, nested, enums, oneofs, isMapEntry⟩ := m
    unfold message
    have hlift : ∀ x : Except Error Unit, Build.Registers (liftM x) fun _ refs => refs = [] :=
      fun _ => .lift fun _ _ => rfl
    refine (hlift _).bind fun _ => (messages_registers ih _ path 3 0).bind fun decls =>
      (Build.Registers.mapM_zipIdx fun f i =>
        field_registers _ oneofs _ _ f).bind fun results => ?_
    have hrequests : ∀ decl : MessageDecl, decl.fields = results →
        Decl.requests
            (.message decl (ctx.enumDecls (namePath ++ name ++ ".") path 4 enums ++ decls)) =
          decls.flatMap Decl.requests ++ results.flatMap Field.requests := by
      rintro decl rfl
      rw [Decl.requests, Decl.requestsAll_eq_flatMap, List.flatMap_append, requests_enumDecls,
        List.nil_append]
    cases isMapEntry with
    | true =>
      refine (hlift _).bind fun _ => .pure ?_
      rintro _ rfl _ rfl _ rfl _ rfl
      rw [hrequests _ rfl]
      simp
    | false =>
      refine .pure ?_
      rintro _ rfl _ rfl _ rfl
      rw [hrequests _ rfl]
      simp

theorem method_registers (serviceName : String) (comment : Option String) (m : MethodDescriptor) :
    Build.Registers (ctx.method serviceName comment m)
      fun decl refs => refs = [decl.input, decl.output] := by
  unfold method
  split
  · exact .throw
  · refine (resolve_registers m.inputType).bind fun input =>
      (resolve_registers m.outputType).bind fun output => .pure ?_
    rintro _ rfl _ rfl
    rfl

theorem service_registers (path : List Int32) (s : ServiceDescriptor) :
    Build.Registers (ctx.service path s) fun service refs => refs = service.references := by
  unfold service
  refine (Build.Registers.mapM_zipIdx fun m i => method_registers _ _ m).bind fun methods =>
    .pure ?_
  rintro _ rfl
  exact List.append_nil _

theorem declarations_registers (file : FileDescriptor) :
    Build.Registers (do
        let messages ← ctx.messages file.namePath [] 4 0 file.messages
        let services ← file.services.zipIdx.mapM fun (s, i) => ctx.service (child [] 6 i) s
        return (messages, services))
      fun result refs => refs =
        result.1.flatMap Decl.requests ++ result.2.flatMap ServiceDecl.references := by
  refine (messages_registers (fun m _ => message_registers m) file.namePath [] 4 0).bind
    fun messages => (Build.Registers.mapM_zipIdx fun s i => service_registers _ s).bind
      fun services => .pure ?_
  rintro _ rfl _ rfl
  simp

end FileContext

/-- The imports of a file are what registering its references makes of the empty table. -/
theorem FileTree.imports_eq_registerAll {scope : Scope} {file : FileDescriptor}
    {language : Language} {tree : FileTree} (h : ofFile scope language file = .ok tree) :
    tree.name = file.fileName ∧
      tree.imports = (emptyImports file language).registerAll tree.requests := by
  obtain ⟨dialect, -, h⟩ := Except.exists_of_bind h
  obtain ⟨_, -, h⟩ := Except.exists_of_bind h
  obtain ⟨⟨⟨messages, services⟩, imports⟩, hrun, h⟩ := Except.exists_of_bind h
  cases h
  obtain ⟨_, rfl, rfl⟩ := FileContext.declarations_registers file _ _ _ hrun
  refine ⟨rfl, ?_⟩
  simp only [requests, List.flatMap_append, FileContext.requests_enumDecls, List.nil_append]

/-! ## Tables that registering makes -/

namespace ImportTable

variable {table : ImportTable}

theorem exists_firstFree_eq (taken : List String) (base : String) (count n : Nat) :
    ∃ number, firstFree taken base count n = base ++ number := by
  induction count generalizing n with
  | zero => exact ⟨_, rfl⟩
  | succ count ih =>
    rw [firstFree]
    split
    · exact ih (n + 1)
    · exact ⟨_, rfl⟩

/-- An alias shows by its underscore. -/
theorem newName_cases (table : ImportTable) (ref : TypeRef) :
    table.newName ref = ref.root ∨ '_' ∈ (table.newName ref).toList := by
  have hbase : '_' ∈ (qualifier ref ++ "_" ++ ref.root).toList := by simp
  rw [newName]
  split
  · right
    rw [freeName]
    split
    · obtain ⟨number, hnumber⟩ := exists_firstFree_eq table.taken
        (qualifier ref ++ "_" ++ ref.root) table.taken.length 2
      rw [hnumber, String.toList_append]
      exact List.mem_append_left _ hbase
    · exact hbase
  · exact .inl rfl

/-- An import is there because its type was registered, under its own name or an alias. -/
theorem find?_registerAll {refs : List TypeRef} {path identifier name : String}
    (h : (table.registerAll refs).find? path identifier = some name) :
    table.find? path identifier = some name ∨
      ∃ ref ∈ refs, ref.file ≠ table.file ∧ ref.root = identifier ∧
        (name = ref.root ∨ '_' ∈ name.toList) := by
  induction refs generalizing table with
  | nil => exact .inl h
  | cons ref refs ih =>
    rcases ih h with hfind | ⟨ref', href', hfile, hrest⟩
    · rcases find?_register_cases hfind with hfind | ⟨hfile, -, hroot, rfl⟩
      · exact .inl hfind
      · exact .inr ⟨ref, List.mem_cons_self, hfile, hroot, table.newName_cases ref⟩
    · rw [(table.extends_register ref).file] at hfile
      exact .inr ⟨ref', List.mem_cons_of_mem ref href', hfile, hrest⟩

/-- What registering keeps besides soundness: the maps are sorted, and the identifier of an import
is taken, be it by that import or by what it had to give way to. -/
structure Tidy (table : ImportTable) : Prop where
  paths : KeyMap.Sorted table.byPath
  identifiers : ∀ p ∈ table.byPath, KeyMap.Sorted p.2
  covered : ∀ {path identifier name}, table.find? path identifier = some name →
    identifier ∈ table.taken

theorem Tidy.find?_of_mem (h : table.Tidy) {p : String × KeyMap String} (hp : p ∈ table.byPath)
    {q : String × String} (hq : q ∈ p.2) : table.find? p.1 q.1 = some q.2 := by
  rw [find?, h.paths.find?_of_mem hp]
  exact (h.identifiers p hp).find?_of_mem hq

theorem Tidy.mem_taken_iff (h : table.Tidy) {name : String} :
    name ∈ table.taken ↔
      name ∈ table.reserved ∨ ∃ path identifier, table.find? path identifier = some name := by
  rw [taken, List.mem_append]
  apply or_congr_right
  constructor
  · intro hbound
    obtain ⟨p, hp, hname⟩ := List.mem_flatMap.1 hbound
    obtain ⟨q, hq, rfl⟩ := List.mem_map.1 hname
    exact ⟨p.1, q.1, h.find?_of_mem hp hq⟩
  · rintro ⟨path, identifier, hfind⟩
    exact mem_bound_of_find? hfind

theorem Extends.taken_subset {later : ImportTable} (hextends : table.Extends later)
    (h : table.Tidy) : table.taken ⊆ later.taken := by
  intro name hname
  rw [taken, List.mem_append]
  rcases h.mem_taken_iff.1 hname with hreserved | ⟨path, identifier, hfind⟩
  · exact .inl (hextends.reserved.symm ▸ hreserved)
  · exact .inr (mem_bound_of_find? (hextends.find? hfind))

/-- The outermost declaration of a type of another file is taken once the type is registered. -/
theorem Tidy.root_mem_taken_register (h : table.Tidy) {ref : TypeRef}
    (hfile : ref.file ≠ table.file) : ref.root ∈ (table.register ref).2.taken := by
  by_cases hroot : ref.root ∈ table.taken
  · exact (table.extends_register ref).taken_subset h hroot
  · have hbinds := table.binds_register ref
    have hname : (table.register ref).1 = ref.root := by
      rcases table.register_cases ref with ⟨name, hbound, -⟩ | ⟨-, -, hregister⟩
      · cases hbound with
        | own hown => exact absurd hown hfile
        | imported _ hfound => exact absurd (h.covered hfound) hroot
      · rw [hregister]
        exact if_neg hroot
    generalize (table.register ref).1 = name at hbinds hname
    cases hbinds with
    | own hown => exact absurd (hown.trans (table.extends_register ref).file) hfile
    | imported _ hfound => exact List.mem_append_right _ (mem_bound_of_find? (hname ▸ hfound))

theorem Tidy.register (h : table.Tidy) (ref : TypeRef) : (table.register ref).2.Tidy := by
  have hcovered : ∀ {path identifier name},
      (table.register ref).2.find? path identifier = some name →
        identifier ∈ (table.register ref).2.taken := by
    intro path identifier name hfind
    rcases find?_register_cases hfind with hfind | ⟨hfile, -, rfl, -⟩
    · exact (table.extends_register ref).taken_subset h (h.covered hfind)
    · exact h.root_mem_taken_register hfile
  rcases table.register_cases ref with ⟨name, -, hregister⟩ | ⟨-, -, hregister⟩
  · rw [hregister]
    exact h
  · have hinner : KeyMap.Sorted ((KeyMap.find? table.byPath (table.pathTo ref)).getD []) := by
      cases hfind : KeyMap.find? table.byPath (table.pathTo ref) with
      | none => exact KeyMap.sorted_nil
      | some m => exact h.identifiers _ (KeyMap.mem_of_find? hfind)
    refine ⟨?_, ?_, hcovered⟩
    · rw [hregister]
      exact h.paths.insert _ _
    · rw [hregister]
      intro p hp
      rcases KeyMap.mem_insert hp with rfl | hp
      · exact hinner.insert _ _
      · exact h.identifiers p hp

theorem Tidy.registerAll (h : table.Tidy) (refs : List TypeRef) :
    (table.registerAll refs).Tidy := by
  induction refs generalizing table with
  | nil => exact h
  | cons ref refs ih => exact ih (h.register ref)

theorem Tidy.root_mem_taken_registerAll (h : table.Tidy) {refs : List TypeRef} {ref : TypeRef}
    (href : ref ∈ refs) (hfile : ref.file ≠ table.file) :
    ref.root ∈ (table.registerAll refs).taken := by
  induction refs generalizing table with
  | nil => cases href
  | cons first refs ih =>
    rcases List.mem_cons.1 href with rfl | href
    · exact (extends_registerAll _ refs).taken_subset (h.register ref)
        (h.root_mem_taken_register hfile)
    · exact ih (h.register first) href
        (fun heq => hfile (heq.trans (table.extends_register _).file))

/-- The local names of the imports differ. -/
theorem Tidy.bound_nodup (h : table.Tidy) (hsound : table.Sound) : table.bound.Nodup := by
  rw [bound, List.nodup_flatMap]
  constructor
  · intro p hp
    refine List.pairwise_map.2 ((h.identifiers p hp).imp_of_mem ?_)
    intro a b ha hb hlt heq
    have hsame := hsound.injective (h.find?_of_mem hp ha) (heq ▸ h.find?_of_mem hp hb)
    exact absurd hlt (hsame.2 ▸ String.lt_irrefl _)
  · refine h.paths.imp_of_mem ?_
    intro p q hp hq hlt name hname hname'
    obtain ⟨a, ha, rfl⟩ := List.mem_map.1 hname
    obtain ⟨b, hb, heq⟩ := List.mem_map.1 hname'
    have hsame := hsound.injective (h.find?_of_mem hp ha) (heq ▸ h.find?_of_mem hq hb)
    exact absurd hlt (hsame.1 ▸ String.lt_irrefl _)

end ImportTable

namespace FileTree

theorem emptyImports_eq (file : FileDescriptor) (language : Language) :
    emptyImports file language =
      { file := file.fileName, language := language, reserved := file.topLevelNames.reverse } := by
  rw [emptyImports, ImportTable.foldl_reserve, List.append_nil]

theorem tidy_emptyImports (file : FileDescriptor) (language : Language) :
    (emptyImports file language).Tidy := by
  rw [emptyImports_eq]
  exact ⟨KeyMap.sorted_nil, by simp, by rintro _ _ _ ⟨⟩⟩

/-- The file that is resolved for a target is the one of that name. -/
theorem ofFile_of_build {files : List FileDescriptor} {targets : List String}
    {language : Language} {trees : List FileTree}
    (h : build files targets language = .ok trees) {target : String} {tree : FileTree}
    (htree : (target, tree) ∈ targets.zip trees) {file : FileDescriptor}
    (hfile : files.find? (·.name = some target) = some file) :
    ∃ scope, ofFile scope language file = .ok tree := by
  obtain ⟨scope, -, h⟩ := Except.exists_of_bind h
  refine ⟨scope, ?_⟩
  have hstep := Except.eq_ok_of_mapM h htree
  rwa [hfile] at hstep

/-- A name that is neither declared by a file nor an alias is imported if a type of another file
that is called so is named in the file, and only then. -/
theorem mem_bound_iff {scope : Scope} {file : FileDescriptor} {language : Language}
    {tree : FileTree} (h : ofFile scope language file = .ok tree) {name : String}
    (hown : name ∉ file.topLevelNames) (halias : '_' ∉ name.toList) :
    name ∈ tree.imports.bound ↔
      ∃ ref ∈ tree.requests, ref.file ≠ tree.name ∧ ref.root = name := by
  obtain ⟨hname, himports⟩ := imports_eq_registerAll h
  have hempty := emptyImports_eq file language
  have htidy := tidy_emptyImports file language
  have hextends := (emptyImports file language).extends_registerAll tree.requests
  have hreserved : name ∉ tree.imports.reserved := by
    rw [himports, hextends.reserved, mem_reserved_emptyImports]
    exact hown
  have htaken : name ∈ tree.imports.bound ↔ name ∈ tree.imports.taken := by
    rw [ImportTable.taken, List.mem_append, or_iff_right hreserved]
  rw [htaken, himports, hname]
  constructor
  · intro hmem
    rw [(htidy.registerAll _).mem_taken_iff, ← himports, or_iff_right hreserved] at hmem
    obtain ⟨path, identifier, hfind⟩ := hmem
    rw [himports] at hfind
    rcases ImportTable.find?_registerAll hfind with hfind | ⟨ref, href, hfile, -, rfl | hline⟩
    · rw [hempty] at hfind
      cases hfind
    · rw [hempty] at hfile
      exact ⟨ref, href, hfile, rfl⟩
    · exact absurd hline halias
  · rintro ⟨ref, href, hfile, rfl⟩
    refine htidy.root_mem_taken_registerAll href ?_
    rw [hempty]
    exact hfile

/-- The imports of a file take no name that it declares, and no name twice. -/
theorem nodup_bound_append {scope : Scope} {file : FileDescriptor} {language : Language}
    {tree : FileTree} (h : ofFile scope language file = .ok tree)
    (hown : file.topLevelNames.Nodup) : (tree.imports.bound ++ file.topLevelNames).Nodup := by
  obtain ⟨-, himports⟩ := imports_eq_registerAll h
  have htidy := (tidy_emptyImports file language).registerAll tree.requests
  have hsound := (sound_emptyImports file language).registerAll tree.requests
  have hextends := (emptyImports file language).extends_registerAll tree.requests
  rw [← himports] at htidy hsound hextends
  refine List.nodup_append'.2 ⟨htidy.bound_nodup hsound, hown, ?_⟩
  intro name hbound hmem
  obtain ⟨p, hp, hname⟩ := List.mem_flatMap.1 hbound
  obtain ⟨q, hq, rfl⟩ := List.mem_map.1 hname
  refine hsound.notReserved (htidy.find?_of_mem hp hq) ?_
  rw [hextends.reserved]
  exact mem_reserved_emptyImports.2 hmem

end FileTree

/-! ## Import statements -/

namespace Script

/-- An import statement of a module. -/
inductive ImportStatement where
  /-- Imports names of the runtime library. -/
  | runtime (keyword : String) (names : List RuntimeName)
  /-- Imports declarations of another module, each under a local name. -/
  | types (path : String) (names : KeyMap String)

namespace ImportStatement

/-- The line that a statement is. -/
def line : ImportStatement → Line
  | runtime keyword names =>
    Script.line [keyword, " \x7b ", joined ", " (names.map Script.runtime), " \x7d from ",
      inQuotes runtimeModule, ";"]
  | types path names =>
    Script.line ["import \x7b ",
      ", ".intercalate (names.map fun q => ImportTable.clause q.1 q.2), " \x7d from ",
      inQuotes path, ";"]

/-- The names that a statement binds. -/
def names : ImportStatement → List String
  | runtime _ names => names.map RuntimeName.text
  | types _ names => names.map (·.2)

/-- Imports names of the runtime library, if there are any to import. -/
def ofRuntime (keyword : String) (names : List RuntimeName) : List ImportStatement :=
  if names.isEmpty then [] else [.runtime keyword names]

theorem importLine_eq (keyword : String) (names : List RuntimeName) :
    importLine keyword (names.map Script.runtime) runtimeModule =
      (ofRuntime keyword names).map line := by
  cases names <;> rfl

theorem names_ofRuntime (keyword : String) (names : List RuntimeName) :
    (ofRuntime keyword names).flatMap ImportStatement.names = names.map RuntimeName.text := by
  cases names with
  | nil => rfl
  | cons => exact List.append_nil _

end ImportStatement

/-- The names of the runtime library that a module imports. -/
def runtimeNames (language : Language) (tree : FileTree) : List RuntimeName :=
  (if language.isTyped then runtimeTypes.filter (needs tree) else []) ++
    runtimeValues.filter (needs tree)

/-- The import statements of a module. -/
def importStatements (language : Language) (tree : FileTree) : List ImportStatement :=
  (if language.isTyped then
    ImportStatement.ofRuntime "import type" (runtimeTypes.filter (needs tree))
  else []) ++
  ImportStatement.ofRuntime "import" (runtimeValues.filter (needs tree)) ++
  tree.imports.byPath.map fun p => .types p.1 p.2

theorem imports_eq_map_line (language : Language) (tree : FileTree) :
    imports language tree = (importStatements language tree).map ImportStatement.line := by
  simp only [imports, importStatements, ImportTable.entries, ImportStatement.importLine_eq,
    List.map_append, List.map_map]
  split <;> rfl

theorem names_importStatements (language : Language) (tree : FileTree) :
    (importStatements language tree).flatMap ImportStatement.names =
      (runtimeNames language tree).map RuntimeName.text ++ tree.imports.bound := by
  have htypes : (tree.imports.byPath.map fun p => ImportStatement.types p.1 p.2).flatMap
      ImportStatement.names = tree.imports.bound := by
    rw [List.flatMap_map]
    rfl
  simp only [importStatements, runtimeNames, List.flatMap_append, List.map_append,
    ImportStatement.names_ofRuntime, htypes]
  split
  · rw [ImportStatement.names_ofRuntime]
  · rfl

theorem RuntimeName.text_injective : Function.Injective RuntimeName.text := by
  intro a b
  cases a <;> cases b <;> decide

theorem RuntimeName.underscore_not_mem_text (name : RuntimeName) : '_' ∉ name.text.toList := by
  cases name <;> decide

theorem nodup_runtimeNames (language : Language) (tree : FileTree) :
    ((runtimeNames language tree).map RuntimeName.text).Nodup := by
  have hall : (runtimeTypes ++ runtimeValues).Nodup := by decide
  have htypes : (if language.isTyped then runtimeTypes.filter (needs tree) else []).Sublist
      runtimeTypes := by
    split
    · exact List.filter_sublist
    · exact List.nil_sublist _
  have hsublist : (runtimeNames language tree).Sublist (runtimeTypes ++ runtimeValues) :=
    htypes.append List.filter_sublist
  exact (hsublist.nodup hall).map RuntimeName.text_injective

/-- The names that the import statements of a module bind and those that it declares are pairwise
distinct, unless the file names a type of another file whose outermost declaration is called like
a name of the runtime library that the module imports. -/
theorem moduleNames_nodup_iff {files : List FileDescriptor} {targets : List String}
    {language : Language} {trees : List FileTree}
    (hbuild : FileTree.build files targets language = .ok trees) {target : String}
    {tree : FileTree} (htree : (target, tree) ∈ targets.zip trees) {file : FileDescriptor}
    (hfile : files.find? (·.name = some target) = some file) (hown : file.topLevelNames.Nodup)
    (hruntime : ∀ name : RuntimeName, name.text ∉ file.topLevelNames) :
    imports language tree = (importStatements language tree).map ImportStatement.line ∧
    (((importStatements language tree).flatMap ImportStatement.names ++
        file.topLevelNames).Nodup ↔
      ∀ ref ∈ tree.requests, ref.file ≠ tree.name →
        ∀ name ∈ runtimeNames language tree, ref.root ≠ name.text) := by
  obtain ⟨scope, hok⟩ := FileTree.ofFile_of_build hbuild htree hfile
  refine ⟨imports_eq_map_line language tree, ?_⟩
  rw [names_importStatements, List.append_assoc, List.nodup_append']
  constructor
  · rintro ⟨-, -, hdisjoint⟩ ref href hforeign name hname hroot
    have hbound := (FileTree.mem_bound_iff hok (hruntime name) name.underscore_not_mem_text).2
      ⟨ref, href, hforeign, hroot⟩
    exact hdisjoint (List.mem_map_of_mem hname) (List.mem_append_left _ hbound)
  · intro happart
    refine ⟨nodup_runtimeNames language tree, FileTree.nodup_bound_append hok hown, ?_⟩
    intro text htext hmem
    obtain ⟨name, hname, rfl⟩ := List.mem_map.1 htext
    rcases List.mem_append.1 hmem with hbound | hdeclared
    · obtain ⟨ref, href, hforeign, hroot⟩ :=
        (FileTree.mem_bound_iff hok (hruntime name) name.underscore_not_mem_text).1 hbound
      exact happart ref href hforeign name hname hroot
    · exact hruntime name hdeclared

/-- The module of the park imports leaves under aliases, next to the runtime library. -/
theorem moduleNames_nodup_park :
    ∃ file tree, FileTree.build park ["park.proto"] .typeScript = .ok [tree] ∧
      park.find? (·.name = some "park.proto") = some file ∧ file.topLevelNames.Nodup ∧
      (∀ name : RuntimeName, name.text ∉ file.topLevelNames) ∧
      ((importStatements .typeScript tree).flatMap ImportStatement.names ++
        file.topLevelNames).Nodup := by
  have hroots : (FileTree.build park ["park.proto"] .typeScript).map
      (List.map fun tree => tree.requests.map (·.root)) =
        .ok [["Leaf", "Leaf", "Leaf", "Leaf", "Leaf"]] := by
    cbv
  have hruntime : ∀ name : RuntimeName, name.text ∉ ["Leaf", "Park"] := by
    intro name
    cases name <;> decide
  cases hbuild : FileTree.build park ["park.proto"] .typeScript with
  | error e =>
    rw [hbuild] at hroots
    cases hroots
  | ok trees =>
    rw [hbuild] at hroots
    obtain ⟨tree, rfl, htree⟩ := List.map_eq_singleton_iff.1 (Except.ok.inj hroots)
    have hmem : ("park.proto", tree) ∈ ["park.proto"].zip [tree] := List.mem_cons_self
    refine ⟨_, tree, rfl, rfl, by decide, hruntime, ?_⟩
    refine (moduleNames_nodup_iff hbuild hmem rfl (by decide) hruntime).2.2 ?_
    intro ref href _ name _ hname
    have hroot : ref.root ∈ ["Leaf", "Leaf", "Leaf", "Leaf", "Leaf"] :=
      htree ▸ List.mem_map_of_mem href
    have hleaf : ref.root = "Leaf" := by simpa using hroot
    exact hruntime name (by rw [← hname, hleaf]; decide)

/-- A file with a type that is named like the reader of the runtime library, and a file that refers
to this type. -/
def desk : List FileDescriptor :=
  [{ name := some "io.proto", package := "io", dialect := "proto3"
     messages := [{ name := "BinaryReader" }] },
    { name := some "desk.proto", package := "desk", dialect := "proto3"
      dependencies := ["io.proto"]
      messages := [
        { name := "Lamp"
          fields := [
            { name := "reader", number := 1, type := .message,
              typeName := ".io.BinaryReader" }] }] }]

/-- Both readers are imported under one name. -/
theorem not_nodup_moduleNames_desk :
    ∃ file tree, FileTree.build desk ["desk.proto"] .javaScript = .ok [tree] ∧
      desk.find? (·.name = some "desk.proto") = some file ∧ file.topLevelNames = ["Lamp"] ∧
      ¬ ((importStatements .javaScript tree).flatMap ImportStatement.names ++
        file.topLevelNames).Nodup := by
  have hnames : (FileTree.build desk ["desk.proto"] .javaScript).map
      (List.map fun tree => (importStatements .javaScript tree).flatMap ImportStatement.names) =
        .ok [["BinaryReader", "BinaryWriter", "BinaryReader"]] := by
    cbv
  cases hbuild : FileTree.build desk ["desk.proto"] .javaScript with
  | error e =>
    rw [hbuild] at hnames
    cases hnames
  | ok trees =>
    rw [hbuild] at hnames
    obtain ⟨tree, rfl, htree⟩ := List.map_eq_singleton_iff.1 (Except.ok.inj hnames)
    refine ⟨_, tree, rfl, rfl, rfl, ?_⟩
    rw [htree]
    decide

end Script

end ProtoStub
