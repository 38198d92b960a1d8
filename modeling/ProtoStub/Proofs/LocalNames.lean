import Mathlib
import ProtoStub.Proofs.BuiltFields
import ProtoStub.Proofs.ImportNames
import ProtoStub.Proofs.Isolation
import ProtoStub.Proofs.ModulePaths

/-!
# Types keep their names apart

In a generated module every type has a name of its own: two references are spelled alike if and
only if they mean the same declaration, and a type of the file itself is spelled as it is declared
(`localName_eq_iff`).

A reference is spelled when it is resolved, by the imports entered so far. Those are only added to,
so it is spelled as the imports of the finished file have it (`Known`); which step it was met in
does not matter any more, and the rest is what is known of sound tables.
-/

namespace ProtoStub

/-! ## References -/

/-- The type that a kind names. -/
def FieldKind.target? : FieldKind → Option TypeRef
  | enum target | message target => some target
  | _ => none

/-- The types that a field refers to. -/
def Field.references : Field → List TypeRef
  | plain info => info.kind.target?.toList
  | map info key value => info.kind.target?.toList ++ key.references ++ value.references

/-- The types that a declaration refers to, those nested in it apart. -/
def Decl.references : Decl → List TypeRef
  | enum _ => []
  | message m _ => m.fields.flatMap Field.references

/-- The types that a service refers to. -/
def ServiceDecl.references (service : ServiceDecl) : List TypeRef :=
  service.methods.flatMap fun m => [m.input, m.output]

/-- The types that a file refers to. -/
def FileTree.references (tree : FileTree) : List TypeRef :=
  tree.walk.flatMap Decl.references ++ tree.services.flatMap ServiceDecl.references

/-- A reference to a declaration of a schema, spelled as a table has it. -/
inductive Known (files : List FileDescriptor) (table : ImportTable) : TypeRef → Prop
  | intro {site : Site} {root : String} (declared : site.DeclaredIn files)
      (binds : table.Binds site.toRef root) : Known files table (site.toRef.bindRoot root)

/-! ## Steps that enter imports -/

/-- A step that does nothing to the imports but register types. Its result has a property if
whatever comes after it leads to the imports `final`. -/
def Build.Enters {α : Type} (final : ImportTable) (x : Build α) (Q : α → Prop) : Prop :=
  ∀ s a s', x.run s = .ok (a, s') →
    s.Extends s' ∧ (s.Sound → s'.Sound) ∧ (s'.Extends final → Q a)

namespace Build.Enters

variable {α β : Type} {final : ImportTable} {Q : α → Prop}

theorem pure {a : α} (h : Q a) : Enters final (Pure.pure a) Q := by
  intro s b s' hrun
  cases hrun
  exact ⟨.refl s, id, fun _ => h⟩

theorem lift {x : Except Error α} (h : ∀ a, x = .ok a → Q a) : Enters final (liftM x) Q := by
  intro s a s' hrun
  have hx := Build.eq_ok_of_lift hrun
  subst hx
  cases hrun
  exact ⟨.refl s, id, fun _ => h a rfl⟩

theorem throw {e : Error} {f : α → Build β} {R : β → Prop} :
    Enters final ((MonadExcept.throw e : Build α) >>= f) R := by
  intro s b s' hrun
  cases hrun

theorem bind {x : Build α} {f : α → Build β} {R : β → Prop} (hx : Enters final x Q)
    (hf : ∀ a, Enters final (f a) fun b => Q a → R b) : Enters final (x >>= f) R := by
  intro s b s' hrun
  obtain ⟨a, t, ha, hb⟩ := Build.exists_of_bind hrun
  obtain ⟨hext, hsound, hQ⟩ := hx s a t ha
  obtain ⟨hext', hsound', hR⟩ := hf a t b s' hb
  exact ⟨hext.trans hext', fun h => hsound' (hsound h),
    fun hfinal => hR hfinal (hQ (hext'.trans hfinal))⟩

theorem imp {x : Build α} {R : α → Prop} (hx : Enters final x Q) (h : ∀ a, Q a → R a) :
    Enters final x R := by
  intro s a s' hrun
  obtain ⟨hext, hsound, hQ⟩ := hx s a s' hrun
  exact ⟨hext, hsound, fun hfinal => h a (hQ hfinal)⟩

theorem map {x : Build α} {f : α → β} {R : β → Prop} (hx : Enters final x Q)
    (h : ∀ a, Q a → R (f a)) : Enters final (f <$> x) R :=
  hx.bind fun a => pure (h a)

theorem mapM {f : α → Build β} {R : β → Prop} {xs : List α}
    (hf : ∀ x, Enters final (f x) R) : Enters final (xs.mapM f) fun bs => ∀ b ∈ bs, R b := by
  induction xs with
  | nil =>
    rw [List.mapM_nil]
    exact pure (by simp)
  | cons x xs ih =>
    rw [List.mapM_cons]
    refine (hf x).bind fun b => ih.bind fun bs => pure fun hbs hb => ?_
    rw [List.forall_mem_cons]
    exact ⟨hb, hbs⟩

theorem mapM_zipIdx {f : α × Nat → Build β} {R : β → Prop} {xs : List α}
    (hf : ∀ x i, Enters final (f (x, i)) R) :
    Enters final (xs.zipIdx.mapM f) fun bs => ∀ b ∈ bs, R b :=
  mapM fun p => hf p.1 p.2

end Build.Enters

/-! ## Fields and messages -/

/-- A declaration refers only to types with a property, and so does everything nested in it. -/
def Decl.RefersTo (P : TypeRef → Prop) (d : Decl) : Prop :=
  ∀ d' ∈ d.walk, ∀ ref ∈ d'.references, P ref

namespace Decl.RefersTo

variable {P : TypeRef → Prop}

theorem self {d : Decl} (h : d.RefersTo P) : ∀ ref ∈ d.references, P ref := by
  apply h
  cases d <;> simp [Decl.walk]

theorem enum (e : EnumDecl) : (Decl.enum e).RefersTo P := by
  simp [Decl.RefersTo, Decl.walk, Decl.references]

theorem message {m : MessageDecl} {children : List Decl}
    (hfields : ∀ field ∈ m.fields, ∀ ref ∈ field.references, P ref)
    (hchildren : ∀ d ∈ children, d.RefersTo P) : (Decl.message m children).RefersTo P := by
  intro d hd ref href
  rw [Decl.walk] at hd
  rcases List.mem_cons.1 hd with rfl | hd
  · obtain ⟨field, hfield, href⟩ := List.mem_flatMap.1 href
    exact hfields field hfield ref href
  · obtain ⟨child, hchild, hd⟩ := Decl.mem_walkAll.1 hd
    exact hchildren child hchild d hd ref href

end Decl.RefersTo

namespace MessageDecl

theorem references_entryField {field result : Field} (h : entryField field = .ok result) :
    result.references = field.references := by
  unfold entryField at h
  obtain ⟨shape, -, h⟩ := Except.exists_of_bind h
  cases h
  cases field <;> rfl

/-- The key and the value of a map refer to what the fields of its entry refer to. -/
theorem references_keyAndValue {entry : MessageDecl} {key value : Field}
    (h : entry.keyAndValue = .ok (key, value)) :
    key.references ++ value.references = entry.fields.flatMap Field.references := by
  unfold keyAndValue at h
  split at h
  next k v hfields =>
    obtain ⟨key', hkey, h⟩ := Except.exists_of_bind h
    obtain ⟨value', hvalue, h⟩ := Except.exists_of_bind h
    cases h
    rw [hfields, references_entryField hkey, references_entryField hvalue]
    simp
  · cases h

end MessageDecl

namespace FileContext

section

variable {files : List FileDescriptor} {file : FileDescriptor} {ctx : FileContext}
  {final : ImportTable}

theorem references_asMap {fieldName : String} {info : FieldInfo} {entry : MessageDecl}
    {result : Field} (h : asMap fieldName info entry = .ok result) :
    result.references = info.kind.target?.toList ++ entry.fields.flatMap Field.references := by
  unfold asMap at h
  split at h
  · obtain ⟨⟨key, value⟩, hpair, h⟩ := Except.exists_of_bind h
    cases h
    rw [Field.references, List.append_assoc, MessageDecl.references_keyAndValue hpair]
  · cases h

theorem resolve_enters (hfiles : DistinctFiles files) (hfile : file ∈ files)
    (hscope : ctx.scope = Scope.ofDistinct files) (hname : ctx.file = file.fileName)
    (name : String) : Build.Enters final (ctx.resolve name) (Known files final) := by
  intro s a s' hrun
  unfold FileContext.resolve at hrun
  rw [hscope, hname] at hrun
  obtain ⟨ref, s₁, href, hrun⟩ := Build.exists_of_bind hrun
  have hresolve := Build.eq_ok_of_lift href
  rw [hresolve] at href
  cases href
  cases hrun
  obtain ⟨site, hsite, rfl⟩ := (resolve_eq_ok_iff hfiles hfile name ref).1 hresolve
  have hmem : site ∈ Meant files file (Text.withoutDot name) := by
    rw [hsite]
    rfl
  refine ⟨s.extends_register _, fun hsound => hsound.register _, ?_⟩
  intro hfinal
  exact .intro hmem.1 (hfinal.binds (s.binds_register _))

variable (hresolve : ∀ name, Build.Enters final (ctx.resolve name) (Known files final))

include hresolve

theorem ofType_enters (name : String) (type : FieldType) :
    Build.Enters final (FieldKind.ofType (ctx.resolve name) type)
      fun kind => ∀ ref ∈ kind.target?, Known files final ref := by
  cases type with
  | message =>
    refine (hresolve name).map ?_
    rintro target htarget _ ⟨⟩
    exact htarget
  | enum =>
    refine (hresolve name).map ?_
    rintro target htarget _ ⟨⟩
    exact htarget
  | _ => exact .pure nofun

theorem field_enters (messageName : String) (oneofs : List String) (nested : List Decl)
    (comment : Option String) (field : FieldDescriptor) :
    Build.Enters final (ctx.field messageName oneofs nested comment field) fun result =>
      (∀ d ∈ nested, d.RefersTo (Known files final)) →
        ∀ ref ∈ result.references, Known files final ref := by
  unfold FileContext.field
  refine (ofType_enters hresolve field.typeName field.type).bind fun kind => ?_
  simp only
  split
  next shape hshape =>
    rw [pure_bind]
    split
    next entry hentry =>
      obtain ⟨children, hmem, -⟩ := mapEntryOf?_eq_some hentry
      refine .lift fun result hresult hkind hnested ref href => ?_
      rw [references_asMap hresult, List.mem_append] at href
      rcases href with href | href
      · exact hkind ref (Option.mem_toList.1 href)
      · exact (hnested _ hmem).self ref href
    · refine .pure fun hkind _ ref href => ?_
      exact hkind ref (Option.mem_toList.1 href)
  · exact .throw

omit hresolve in
theorem messages_enters {P : Decl → Prop} {messages : List MessageDescriptor}
    (hmessages : ∀ m ∈ messages, ∀ namePath path,
      Build.Enters final (ctx.message namePath path m) P)
    (namePath : String) (path : List Int32) (sort : Int32) (index : Nat) :
    Build.Enters final (ctx.messages namePath path sort index messages)
      fun ds => ∀ d ∈ ds, P d := by
  induction messages generalizing index with
  | nil =>
    unfold messages
    exact .pure (by simp)
  | cons m rest ih =>
    rw [List.forall_mem_cons] at hmessages
    unfold messages
    refine (hmessages.1 namePath _).bind fun d => (ih hmessages.2 (index + 1)).bind fun ds =>
      .pure fun hds hd => ?_
    rw [List.forall_mem_cons]
    exact ⟨hd, hds⟩

omit hresolve in
theorem enumDecls_refersTo {P : TypeRef → Prop} (namePath : String) (path : List Int32)
    (sort : Int32) (enums : List EnumDescriptor) :
    ∀ d ∈ ctx.enumDecls namePath path sort enums, d.RefersTo P := by
  intro d hd
  obtain ⟨_, -, rfl⟩ := List.mem_map.1 hd
  exact .enum _

theorem message_enters (m : MessageDescriptor) : ∀ namePath path,
    Build.Enters final (ctx.message namePath path m) (Decl.RefersTo (Known files final)) := by
  induction m using MessageDescriptor.induct with
  | step m ih =>
    intro namePath path
    obtain ⟨name, fields, extensionFields, nested, enums, oneofs, isMapEntry⟩ := m
    unfold message
    have hlift : ∀ x : Except Error Unit, Build.Enters final (liftM x) fun _ => True :=
      fun _ => .lift fun _ _ => trivial
    refine (hlift _).bind fun _ => (messages_enters ih _ path 3 0).bind fun decls =>
      (Build.Enters.mapM_zipIdx fun f i =>
        field_enters hresolve _ oneofs _ _ f).bind fun results => ?_
    have henums : ∀ d ∈ ctx.enumDecls (namePath ++ name ++ ".") path 4 enums,
        d.RefersTo (Known files final) := enumDecls_refersTo _ path 4 enums
    cases isMapEntry with
    | true =>
      refine (hlift _).bind fun _ => .pure fun _ hresults hdecls _ => ?_
      have hchildren := List.forall_mem_append.2 ⟨henums, hdecls⟩
      exact .message (fun field hfield => hresults field hfield hchildren) hchildren
    | false =>
      refine .pure fun hresults hdecls _ => ?_
      have hchildren := List.forall_mem_append.2 ⟨henums, hdecls⟩
      exact .message (fun field hfield => hresults field hfield hchildren) hchildren

theorem method_enters (serviceName : String) (comment : Option String) (m : MethodDescriptor) :
    Build.Enters final (ctx.method serviceName comment m) fun decl =>
      Known files final decl.input ∧ Known files final decl.output := by
  unfold method
  split
  · exact .throw
  · exact (hresolve m.inputType).bind fun input =>
      (hresolve m.outputType).bind fun output =>
        .pure fun houtput hinput => ⟨hinput, houtput⟩

theorem service_enters (path : List Int32) (s : ServiceDescriptor) :
    Build.Enters final (ctx.service path s) fun service =>
      ∀ ref ∈ service.references, Known files final ref := by
  unfold service
  refine (Build.Enters.mapM_zipIdx fun m i =>
    method_enters hresolve _ _ m).bind fun methods =>
      .pure fun hmethods ref href => ?_
  obtain ⟨m, hm, href⟩ := List.mem_flatMap.1 href
  rcases List.mem_pair.1 href with rfl | rfl
  · exact (hmethods m hm).1
  · exact (hmethods m hm).2

theorem declarations_enters :
    Build.Enters final (do
        let messages ← ctx.messages file.namePath [] 4 0 file.messages
        let services ← file.services.zipIdx.mapM fun (s, i) => ctx.service (child [] 6 i) s
        return (messages, services))
      fun result => (∀ d ∈ result.1, d.RefersTo (Known files final)) ∧
        ∀ service ∈ result.2, ∀ ref ∈ service.references, Known files final ref := by
  exact (messages_enters (fun m _ => message_enters hresolve m)
    file.namePath [] 4 0).bind fun messages => (Build.Enters.mapM_zipIdx fun s i =>
      service_enters hresolve _ s).bind fun services =>
        .pure fun hservices hmessages => ⟨hmessages, hservices⟩

end

end FileContext

/-! ## Files -/

theorem ImportTable.foldl_reserve (names : List String) (table : ImportTable) :
    names.foldl reserve table = { table with reserved := names.reverse ++ table.reserved } := by
  induction names generalizing table with
  | nil => rfl
  | cons name names ih => simp [ih, reserve]

namespace FileTree

theorem sound_emptyImports (file : FileDescriptor) (language : Language) :
    (emptyImports file language).Sound := by
  have hfind : ∀ path identifier, (emptyImports file language).find? path identifier = none := by
    intro path identifier
    rw [emptyImports, ImportTable.foldl_reserve]
    rfl
  refine ⟨?_, ?_, ?_⟩
  all_goals
    intros
    simp_all

theorem mem_reserved_emptyImports {file : FileDescriptor} {language : Language} {name : String} :
    name ∈ (emptyImports file language).reserved ↔ name ∈ file.topLevelNames := by
  rw [emptyImports, ImportTable.foldl_reserve]
  simp

theorem known_of_enters {files : List FileDescriptor} {file : FileDescriptor} {language : Language}
    {tree : FileTree} {scope : Scope}
    (hresolve : ∀ {ctx : FileContext} {final : ImportTable}, ctx.scope = scope →
      ctx.file = file.fileName →
        ∀ name, Build.Enters final (ctx.resolve name) (Known files final))
    (hok : ofFile scope language file = .ok tree) :
    tree.name = file.fileName ∧ tree.imports.Sound ∧
      (emptyImports file language).Extends tree.imports ∧
      ∀ ref ∈ tree.references, Known files tree.imports ref := by
  obtain ⟨dialect, -, hok⟩ := Except.exists_of_bind hok
  obtain ⟨_, -, hok⟩ := Except.exists_of_bind hok
  obtain ⟨⟨⟨messages, services⟩, imports⟩, hrun, hok⟩ := Except.exists_of_bind hok
  cases hok
  obtain ⟨hextends, hsound, hknown⟩ :=
    FileContext.declarations_enters (hresolve rfl rfl) _ _ _ hrun
  obtain ⟨hmessages, hservices⟩ := hknown (.refl imports)
  refine ⟨rfl, hsound (sound_emptyImports file language), hextends, ?_⟩
  intro ref href
  rcases List.mem_append.1 href with href | href
  · obtain ⟨d, hd, href⟩ := List.mem_flatMap.1 href
    obtain ⟨top, htop, hd⟩ := Decl.mem_walkAll.1 hd
    rcases List.mem_append.1 htop with htop | htop
    · exact FileContext.enumDecls_refersTo _ _ _ _ top htop d hd ref href
    · exact hmessages top htop d hd ref href
  · obtain ⟨service, hservice, href⟩ := List.mem_flatMap.1 href
    exact hservices service hservice ref href

/-- Everything that a resolved file refers to is known to its imports. -/
theorem known_of_ofFile {files : List FileDescriptor} {file : FileDescriptor} {language : Language}
    {tree : FileTree} (h : DistinctFiles files) (hfile : file ∈ files)
    (hok : ofFile (Scope.ofDistinct files) language file = .ok tree) :
    tree.name = file.fileName ∧ tree.imports.Sound ∧
      (emptyImports file language).Extends tree.imports ∧
      ∀ ref ∈ tree.references, Known files tree.imports ref :=
  known_of_enters (FileContext.resolve_enters h hfile) hok

theorem exists_of_build {files : List FileDescriptor} {targets : List String} {language : Language}
    {trees : List FileTree} (h : DistinctFiles files)
    (hbuild : build files targets language = .ok trees) :
    ∀ tree ∈ trees, ∃ file ∈ files,
      ofFile (Scope.ofDistinct files) language file = .ok tree := by
  simp only [build, Scope.ofFiles_eq h] at hbuild
  refine Except.forall_of_mapM ?_ hbuild
  intro target _ tree htree
  split at htree
  · cases htree
  next file hfile => exact ⟨file, List.mem_of_find?_eq_some hfile, htree⟩

end FileTree

/-! ## Spelling -/

/-- A file in which the names at the top have no dots. -/
def FileDescriptor.DotFree (file : FileDescriptor) : Prop :=
  ∀ name ∈ file.enums.map (·.name) ++ file.messages.map (·.name), '.' ∉ name.toList

/-- The outermost declaration around a declaration stands at the top of its file. -/
theorem Site.root_mem_topLevelNames {files : List FileDescriptor} {site : Site}
    (hdeclared : site.DeclaredIn files) (hdot : site.file.DotFree) :
    site.toRef.root ∈ site.file.topLevelNames := by
  have hname : ∃ name ∈ site.file.enums.map (·.name) ++ site.file.messages.map (·.name),
      ∃ rest, site.toRef.shortName = dotted name rest := by
    obtain ⟨index, file, place⟩ := site
    cases hdeclared.2 with
    | enum he =>
      have hmem := List.mem_map_of_mem (f := (·.name)) (List.mem_of_getElem? he)
      exact ⟨_, List.mem_append_left _ hmem, none, rfl⟩
    | message hm =>
      have hmem := List.mem_map_of_mem (f := (·.name)) (List.mem_of_getElem? hm)
      exact ⟨_, List.mem_append_right _ hmem, none, rfl⟩
    | @nested _ _ i m p hm hnested =>
      have hmem := List.mem_map_of_mem (f := (·.name)) (List.mem_of_getElem? hm)
      exact ⟨_, List.mem_append_right _ hmem, some p.path, p.path_within i m.name⟩
  obtain ⟨name, hmem, rest, hshort⟩ := hname
  rw [TypeRef.root_of_dotted hshort (hdot name hmem)]
  exact List.mem_append_left _ hmem

section

variable {files : List FileDescriptor} {file : FileDescriptor} {table : ImportTable}

/-- Two references that a table knows are spelled alike if they mean the same declaration. -/
theorem Known.spelled_alike_iff (h : DistinctFiles files)
    (hpaths : ∀ file ∈ files, ModulePath.IsSchemaPath file.fileName)
    (hnames : ∀ file ∈ files, file.DotFree) (hsound : table.Sound)
    (hfile : file ∈ files) (hown : table.file = file.fileName)
    (hreserved : ∀ name ∈ file.topLevelNames, name ∈ table.reserved)
    {ref ref' : TypeRef} (href : Known files table ref) (href' : Known files table ref') :
    ref.localName = ref'.localName ↔ ref.file = ref'.file ∧ ref.fqName = ref'.fqName := by
  have hroot : ∀ site : Site, site.DeclaredIn files → site.toRef.file = table.file →
      site.toRef.root ∈ table.reserved := by
    intro site hdeclared hsite
    have hmem : site.file ∈ files := List.mem_of_getElem? hdeclared.1
    have heq : site.file = file := h.eq_of_fileName hmem hfile (hsite.trans hown)
    have htop := site.root_mem_topLevelNames hdeclared (hnames _ hmem)
    exact hreserved _ (heq ▸ htop)
  cases href with | @intro site root hdeclared hbinds => ?_
  cases href' with | @intro site' root' hdeclared' hbinds' => ?_
  have hmem := List.mem_of_getElem? hdeclared.1
  have hmem' := List.mem_of_getElem? hdeclared'.1
  rw [TypeRef.localName_bindRoot, TypeRef.localName_bindRoot,
    dotted_inj (hsound.dotFree_of_binds hbinds) (hsound.dotFree_of_binds hbinds')]
  obtain ⟨-, hshort⟩ := site.toRef.shortName_cases
  obtain ⟨-, hshort'⟩ := site'.toRef.shortName_cases
  -- The table tells the file and the root from each other, the rest of the name tells the path.
  constructor
  · rintro ⟨rfl, hrest⟩
    obtain ⟨hfiles, hroots⟩ := hsound.eq_of_binds (hroot site hdeclared) (hroot site' hdeclared')
      (ModulePath.relative_injective (hpaths _ hmem) (hpaths _ hmem')) hbinds hbinds'
    have heq : site.file = site'.file := h.eq_of_fileName hmem hmem' hfiles
    have hpath : site.place.path = site'.place.path := by
      rw [hroots, hrest, ← hshort'] at hshort
      exact hshort
    refine ⟨hfiles, ?_⟩
    change site.file.namePath ++ site.place.path = site'.file.namePath ++ site'.place.path
    rw [heq, hpath]
  · rintro ⟨hfiles, hfqName⟩
    have heq : site.file = site'.file := h.eq_of_fileName hmem hmem' hfiles
    have hpath : site.toRef.shortName = site'.toRef.shortName := by
      change site.file.namePath ++ site.place.path = site'.file.namePath ++ site'.place.path
        at hfqName
      rw [heq] at hfqName
      exact (String.append_right_inj _).1 hfqName
    have hroots : site.toRef.root = site'.toRef.root := by
      rw [TypeRef.root, TypeRef.root, hpath]
    refine ⟨hbinds.unique hbinds' hfiles hroots, ?_⟩
    rw [TypeRef.rest, TypeRef.rest, hpath]

/-- A type of the file itself is spelled by its path. -/
theorem Known.exists_site (hown : table.file = file.fileName) {ref : TypeRef}
    (href : Known files table ref) :
    ∃ site : Site, site.DeclaredIn files ∧ ref.file = site.file.fileName ∧
      ref.fqName = site.fqName ∧ (ref.file = file.fileName → ref.localName = site.place.path) := by
  cases href with | @intro site root hdeclared hbinds => ?_
  refine ⟨site, hdeclared, rfl, rfl, fun hfile => ?_⟩
  rw [TypeRef.localName_bindRoot]
  cases hbinds with
  | own => exact site.toRef.shortName_cases.2.symm
  | imported hforeign => exact absurd (hfile.trans hown.symm) hforeign

end

/-- In the module of a file every type has a name of its own: what the file refers to is spelled
alike if it is the same declaration, and only then. A type of the file itself is spelled by its
path in the package. -/
theorem localName_eq_iff {files : List FileDescriptor} {targets : List String}
    {language : Language} {trees : List FileTree} {tree : FileTree} (h : DistinctFiles files)
    (hpaths : ∀ file ∈ files, ModulePath.IsSchemaPath file.fileName)
    (hnames : ∀ file ∈ files, file.DotFree)
    (hbuild : FileTree.build files targets language = .ok trees) (htree : tree ∈ trees) :
    (∀ ref ∈ tree.references, ∃ site : Site, site.DeclaredIn files ∧
      ref.file = site.file.fileName ∧ ref.fqName = site.fqName ∧
      (ref.file = tree.name → ref.localName = site.place.path)) ∧
    ∀ ref ∈ tree.references, ∀ ref' ∈ tree.references,
      ref.localName = ref'.localName ↔ ref.file = ref'.file ∧ ref.fqName = ref'.fqName := by
  obtain ⟨file, hfile, hok⟩ := FileTree.exists_of_build h hbuild tree htree
  obtain ⟨hname, hsound, hextends, hknown⟩ := FileTree.known_of_ofFile h hfile hok
  have hown : tree.imports.file = file.fileName := by
    rw [hextends.file, FileTree.emptyImports, ImportTable.foldl_reserve]
  have hreserved : ∀ name ∈ file.topLevelNames, name ∈ tree.imports.reserved := by
    intro name hmem
    rw [hextends.reserved]
    exact FileTree.mem_reserved_emptyImports.2 hmem
  rw [hname]
  refine ⟨fun ref href => (hknown ref href).exists_site hown, ?_⟩
  intro ref href ref' href'
  exact (hknown ref href).spelled_alike_iff h hpaths hnames hsound hfile hown hreserved
    (hknown ref' href')

/-- Three files that each declare leaves; the last one refers to all of them. -/
def park : List FileDescriptor :=
  [{ name := some "trees/oak.proto", package := "oak"
     messages := [{ name := "Leaf", nested := [{ name := "Vein" }] }] },
    { name := some "trees/fir.proto", messages := [{ name := "Leaf" }] },
    { name := some "park.proto", package := "oak.park"
      dependencies := ["trees/oak.proto", "trees/fir.proto"]
      messages := [
        { name := "Leaf" },
        { name := "Park"
          fields := [
            { name := "oak", number := 1, type := .message, typeName := ".oak.Leaf" },
            { name := "fir", number := 2, type := .message, typeName := ".Leaf" },
            { name := "vein", number := 3, type := .message, typeName := ".oak.Leaf.Vein" },
            { name := "own", number := 4, type := .message, typeName := ".oak.park.Leaf" },
            { name := "more", number := 5, type := .message, typeName := ".Leaf" }] }] }]

/-- The leaves of the three files have three names. -/
theorem localName_eq_iff_park :
    DistinctFiles park ∧ (∀ file ∈ park, ModulePath.IsSchemaPath file.fileName) ∧
      (∀ file ∈ park, file.DotFree) ∧
      ∃ tree, FileTree.build park ["park.proto"] .typeScript = .ok [tree] ∧
        tree.references.map (·.localName) =
          ["oak_Leaf", "trees_fir_Leaf", "oak_Leaf.Vein", "Leaf", "trees_fir_Leaf"] ∧
        ∀ ref ∈ tree.references, ∀ ref' ∈ tree.references,
          ref.localName = ref'.localName ↔ ref.file = ref'.file ∧ ref.fqName = ref'.fqName := by
  have h : DistinctFiles park := ⟨by decide, by decide⟩
  have hpaths : ∀ file ∈ park, ModulePath.IsSchemaPath file.fileName := by
    simp only [park, List.forall_mem_cons, List.not_mem_nil, false_imp_iff, implies_true, and_true]
    refine ⟨⟨["trees"], "oak", by decide +kernel, ?_⟩, ⟨["trees"], "fir", by decide +kernel, ?_⟩,
      ⟨[], "park", by decide +kernel, by simp⟩⟩
    all_goals simp [ModulePath.LeadsDown]
  have hnames : ∀ file ∈ park, file.DotFree := by
    unfold FileDescriptor.DotFree
    decide +kernel
  have hspelled : (FileTree.build park ["park.proto"] .typeScript).map
      (List.map fun tree => tree.references.map (·.localName)) =
        .ok [["oak_Leaf", "trees_fir_Leaf", "oak_Leaf.Vein", "Leaf", "trees_fir_Leaf"]] := by
    cbv
  cases hbuild : FileTree.build park ["park.proto"] .typeScript with
  | error e =>
    rw [hbuild] at hspelled
    cases hspelled
  | ok trees =>
    rw [hbuild] at hspelled
    obtain ⟨tree, rfl, htree⟩ := List.map_eq_singleton_iff.1 (Except.ok.inj hspelled)
    exact ⟨h, hpaths, hnames, tree, rfl, htree,
      (localName_eq_iff h hpaths hnames hbuild List.mem_cons_self).2⟩

end ProtoStub
