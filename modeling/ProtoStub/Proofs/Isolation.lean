import ProtoStub.Generate
import ProtoStub.Proofs.Resolution

/-!
# Generated code depends on what a file sees

Two schemas may share a file and everything that the file sees, and differ in all else: in the
order of their files, in files that it does not see and in the positions that all of them have.
The module of the file is the same in both, and so is the fault if there is none (`SameResult`,
in which only the files that an ambiguous name is found in may be listed in another order).

The argument compares two runs. The schema enters a run only where a name is resolved
(`resolve_sameResult`); everything after that is carried along by `SameResult.bind` and
`SameRun.bind`.
-/

namespace ProtoStub

/-! ## Comparing runs -/

/-- The same error, except that the files that declare an ambiguous name may be listed in another
order. -/
inductive Error.Alike : Error → Error → Prop
  | refl (e : Error) : Error.Alike e e
  | ambiguous (name file : String) {candidates candidates' : List String}
      (perm : candidates.Perm candidates') :
      Error.Alike (.ambiguous name file candidates) (.ambiguous name file candidates')

/-- The same value, or errors that are alike. -/
inductive SameResult {α : Type} : Except Error α → Except Error α → Prop
  | ok (a : α) : SameResult (.ok a) (.ok a)
  | error {e e' : Error} (alike : e.Alike e') : SameResult (.error e) (.error e')

namespace SameResult

variable {α β : Type}

theorem refl (x : Except Error α) : SameResult x x := by
  cases x with
  | error e => exact .error (.refl e)
  | ok a => exact .ok a

theorem bind {x x' : Except Error α} {f f' : α → Except Error β} (hx : SameResult x x')
    (hf : ∀ a, SameResult (f a) (f' a)) : SameResult (x >>= f) (x' >>= f') := by
  cases hx with
  | ok a => exact hf a
  | error alike => exact .error alike

theorem map {x x' : Except Error α} (hx : SameResult x x') (f : α → β) :
    SameResult (x.map f) (x'.map f) := by
  cases hx with
  | ok a => exact .ok (f a)
  | error alike => exact .error alike

end SameResult

/-- Two constructions with the same result from whatever imports they start. -/
def SameRun {α : Type} (x y : Build α) : Prop :=
  ∀ imports, SameResult (x.run imports) (y.run imports)

namespace SameRun

variable {α β : Type}

theorem refl (x : Build α) : SameRun x x := fun _ => .refl _

theorem bind {x x' : Build α} {f f' : α → Build β} (hx : SameRun x x')
    (hf : ∀ a, SameRun (f a) (f' a)) : SameRun (x >>= f) (x' >>= f') :=
  fun imports => (hx imports).bind fun (a, imports') => hf a imports'

theorem lift {x x' : Except Error α} (h : SameResult x x') :
    SameRun (liftM x : Build α) (liftM x') :=
  fun imports => h.bind fun a => .refl (.ok (a, imports))

theorem map {x x' : Build α} (hx : SameRun x x') (f : α → β) : SameRun (f <$> x) (f <$> x') :=
  hx.bind fun a => .refl (pure (f a))

theorem mapM {f f' : α → Build β} (hf : ∀ a, SameRun (f a) (f' a)) (xs : List α) :
    SameRun (xs.mapM f) (xs.mapM f') := by
  induction xs with
  | nil => exact .refl _
  | cons x xs ih =>
    rw [List.mapM_cons, List.mapM_cons]
    exact (hf x).bind fun b => ih.bind fun bs => .refl _

end SameRun

/-! ## Names -/

theorem Scope.answer_perm (fqName file : String) {found found' : List Declaration}
    (h : found.Perm found') : SameResult (answer fqName file found) (answer fqName file found') := by
  match found, found', h.length_eq with
  | [], [], _ => exact .refl _
  | [d], [d'], _ =>
    obtain rfl : d = d' := by simpa using h
    exact .refl _
  | _ :: _ :: _, _ :: _ :: _, _ => exact .error (.ambiguous fqName file (h.map _))

theorem Declaration.file_of_mem_ofFile {file : FileDescriptor} {d : Declaration}
    (h : d ∈ Declaration.ofFile file) : d.file = file.fileName := by
  rw [← map_places] at h
  obtain ⟨place, -, rfl⟩ := List.mem_map.1 h
  rfl

theorem flatMap_eq_flatMap_filter {α β : Type} {p : α → Bool} {f g : α → List β} {xs : List α}
    (hkept : ∀ x ∈ xs, p x = true → f x = g x) (hdropped : ∀ x ∈ xs, p x = false → f x = []) :
    xs.flatMap f = (xs.filter p).flatMap g := by
  induction xs with
  | nil => rfl
  | cons x xs ih =>
    have ih := ih (fun y hy => hkept y (List.mem_cons_of_mem x hy))
      (fun y hy => hdropped y (List.mem_cons_of_mem x hy))
    rw [List.flatMap_cons, ih]
    cases hp : p x with
    | true =>
      rw [List.filter_cons_of_pos hp, List.flatMap_cons, hkept x List.mem_cons_self hp]
    | false =>
      rw [List.filter_cons_of_neg (by simp [hp]), hdropped x List.mem_cons_self hp]
      rfl

open scoped Classical in
/-- The candidates for a name are gathered file by file, from those that are seen. -/
theorem Scope.candidates_eq_flatMap {files : List FileDescriptor} {file : FileDescriptor} {i : Nat}
    (h : DistinctFiles files) (hi : files[i]? = some file) (fqName : String) :
    (ofDistinct files).declarations.filter
        ((ofDistinct files).isCandidate ((ofDistinct files).visible i) fqName) =
      (files.filter (Sees files file ·)).flatMap fun g =>
        (Declaration.ofFile g).filter (·.fqName = fqName) := by
  rw [ofDistinct, List.filter_flatMap]
  apply flatMap_eq_flatMap_filter
  · intro g hg hsees
    refine List.filter_congr fun d hd => ?_
    have hiff := isCandidate_iff h hi hg (Declaration.file_of_mem_ofFile hd) fqName
    have hsees : Sees files file g := of_decide_eq_true hsees
    rw [Bool.eq_iff_iff, decide_eq_true_iff]
    exact hiff.trans (and_iff_left hsees)
  · intro g hg hunseen
    refine List.filter_eq_nil_iff.2 fun d hd hcandidate => ?_
    have hiff := isCandidate_iff h hi hg (Declaration.file_of_mem_ofFile hd) fqName
    exact of_decide_eq_false hunseen (hiff.1 hcandidate).2

section

variable {files files' : List FileDescriptor} {file : FileDescriptor}

open scoped Classical in
theorem perm_seen (h : DistinctFiles files) (h' : DistinctFiles files') (hfile : file ∈ files)
    (hfile' : file ∈ files') (hsees : ∀ g, Sees files file g ↔ Sees files' file g) :
    (files.filter (Sees files file ·)).Perm (files'.filter (Sees files' file ·)) := by
  rw [List.perm_ext_iff_of_nodup (h.nodup.filter _) (h'.nodup.filter _)]
  intro g
  simp only [List.mem_filter, decide_eq_true_iff]
  constructor
  · rintro ⟨-, hg⟩
    have hg' := (hsees g).1 hg
    exact ⟨hg'.mem hfile', hg'⟩
  · rintro ⟨-, hg'⟩
    have hg := (hsees g).2 hg'
    exact ⟨hg.mem hfile, hg⟩

/-- A name means the same in two schemas in which a file sees the same. -/
theorem resolve_sameResult (h : DistinctFiles files) (h' : DistinctFiles files')
    (hfile : file ∈ files) (hfile' : file ∈ files')
    (hsees : ∀ g, Sees files file g ↔ Sees files' file g) (name : String) :
    SameResult ((Scope.ofDistinct files).resolve name file.fileName)
      ((Scope.ofDistinct files').resolve name file.fileName) := by
  obtain ⟨i, hi⟩ := List.mem_iff_getElem?.1 hfile
  obtain ⟨j, hj⟩ := List.mem_iff_getElem?.1 hfile'
  rw [Scope.resolve_eq_answer h hi, Scope.resolve_eq_answer h' hj,
    Scope.candidates_eq_flatMap h hi, Scope.candidates_eq_flatMap h' hj]
  exact Scope.answer_perm _ _ ((perm_seen h h' hfile hfile' hsees).flatMap_right _)

end

/-! ## Declarations -/

namespace FileContext

/-- The same context, but for the scope in which names are resolved. -/
def withScope (ctx : FileContext) (scope : Scope) : FileContext := { ctx with scope := scope }

section

variable {ctx : FileContext} {scope : Scope}

@[simp] theorem package_withScope : (ctx.withScope scope).package = ctx.package := rfl

@[simp] theorem dialect_withScope : (ctx.withScope scope).dialect = ctx.dialect := rfl

@[simp] theorem fieldInfo_withScope : (ctx.withScope scope).fieldInfo = ctx.fieldInfo := rfl

@[simp] theorem comment?_withScope : (ctx.withScope scope).comment? = ctx.comment? := rfl

@[simp] theorem enumDecls_withScope : (ctx.withScope scope).enumDecls = ctx.enumDecls := rfl

theorem messages_sameRun {messages : List MessageDescriptor}
    (hmessages : ∀ m ∈ messages, ∀ namePath path,
      SameRun (ctx.message namePath path m) ((ctx.withScope scope).message namePath path m))
    (namePath : String) (path : List Int32) (sort : Int32) (index : Nat) :
    SameRun (ctx.messages namePath path sort index messages)
      ((ctx.withScope scope).messages namePath path sort index messages) := by
  induction messages generalizing index with
  | nil => exact .refl _
  | cons m rest ih =>
    have hrest := ih fun m' hm' => hmessages m' (List.mem_cons_of_mem m hm')
    unfold messages
    exact (hmessages m List.mem_cons_self namePath _).bind fun _ =>
      (hrest (index + 1)).bind fun _ => .refl _

variable
  (hscope : ∀ name, SameResult (ctx.scope.resolve name ctx.file) (scope.resolve name ctx.file))

include hscope

theorem resolve_sameRun (name : String) :
    SameRun (ctx.resolve name) ((ctx.withScope scope).resolve name) :=
  (SameRun.lift (hscope name)).bind fun _ => .refl _

theorem ofType_sameRun (name : String) (type : FieldType) :
    SameRun (FieldKind.ofType (ctx.resolve name) type)
      (FieldKind.ofType ((ctx.withScope scope).resolve name) type) := by
  cases type with
  | message | enum => exact (resolve_sameRun hscope name).map _
  | _ =>
    simp only [FieldKind.ofType]
    exact .refl _

theorem field_sameRun (messageName : String) (oneofs : List String) (nested : List Decl)
    (comment : Option String) (field : FieldDescriptor) :
    SameRun (ctx.field messageName oneofs nested comment field)
      ((ctx.withScope scope).field messageName oneofs nested comment field) := by
  unfold FileContext.field
  simp only [dialect_withScope, fieldInfo_withScope]
  exact (ofType_sameRun hscope field.typeName field.type).bind fun _ => .refl _

theorem message_sameRun (m : MessageDescriptor) : ∀ namePath path,
    SameRun (ctx.message namePath path m) ((ctx.withScope scope).message namePath path m) := by
  induction m using MessageDescriptor.induct with
  | step m ih =>
    intro namePath path
    obtain ⟨name, fields, extensionFields, nested, enums, oneofs, isMapEntry⟩ := m
    unfold message
    simp only [package_withScope, comment?_withScope, enumDecls_withScope]
    refine (SameRun.refl _).bind fun _ => (messages_sameRun ih _ path 3 0).bind fun _ => ?_
    refine SameRun.bind (SameRun.mapM ?_ _) fun _ => .refl _
    rintro ⟨f, i⟩
    exact field_sameRun hscope _ _ _ _ f

theorem method_sameRun (serviceName : String) (comment : Option String) (m : MethodDescriptor) :
    SameRun (ctx.method serviceName comment m)
      ((ctx.withScope scope).method serviceName comment m) := by
  have htypes := (resolve_sameRun hscope m.inputType).bind fun input =>
    (resolve_sameRun hscope m.outputType).bind fun output =>
      SameRun.refl (pure (MethodDecl.mk m.name input output comment))
  unfold method
  split
  · exact (SameRun.refl _).bind fun _ => htypes
  · exact htypes

theorem service_sameRun (path : List Int32) (s : ServiceDescriptor) :
    SameRun (ctx.service path s) ((ctx.withScope scope).service path s) :=
  (SameRun.mapM (fun _ => method_sameRun hscope _ _ _) _).bind fun _ => .refl _

end

end FileContext

/-! ## Files -/

theorem FileTree.ofFile_sameResult {scope scope' : Scope} {file : FileDescriptor}
    (hscope : ∀ name, SameResult (scope.resolve name file.fileName)
      (scope'.resolve name file.fileName)) (language : Language) :
    SameResult (ofFile scope language file) (ofFile scope' language file) := by
  unfold ofFile
  refine (SameResult.refl _).bind fun dialect => (SameResult.refl _).bind fun _ => ?_
  refine SameResult.bind ?_ fun _ => .refl _
  let ctx : FileContext :=
    { scope := scope, file := file.fileName, package := file.package, dialect := dialect,
      remarks := file.remarks }
  have hctx : ∀ name, SameResult (ctx.scope.resolve name ctx.file)
      (scope'.resolve name ctx.file) := hscope
  refine SameRun.bind (FileContext.messages_sameRun ?_ _ _ _ _) (fun _ => ?_) _
  · exact fun m _ => FileContext.message_sameRun hctx m
  · exact (SameRun.mapM (fun _ => FileContext.service_sameRun hctx _ _) _).bind fun _ => .refl _

theorem DistinctFiles.find?_eq {files : List FileDescriptor} {file : FileDescriptor}
    (h : DistinctFiles files) (hfile : file ∈ files) :
    files.find? (·.name = some file.fileName) = some file := by
  have hname : ∀ g ∈ files, g.name = some g.fileName := by
    intro g hg
    obtain ⟨name, hsome⟩ := Option.isSome_iff_exists.1 (h.named g hg)
    simp [FileDescriptor.fileName, hsome]
  cases hfind : files.find? (·.name = some file.fileName) with
  | none =>
    have := List.find?_eq_none.1 hfind file hfile
    simp [← hname file hfile] at this
  | some g =>
    have hg := List.mem_of_find?_eq_some hfind
    have heq : g.name = some file.fileName := by simpa using List.find?_some hfind
    rw [hname g hg, Option.some.injEq] at heq
    rw [h.eq_of_fileName hg hfile heq]

theorem FileTree.build_target {files : List FileDescriptor} {file : FileDescriptor}
    (h : DistinctFiles files) (hfile : file ∈ files) (language : Language) :
    build files [file.fileName] language =
      (ofFile (Scope.ofDistinct files) language file).map ([·]) := by
  simp only [build, Scope.ofFiles_eq h, List.mapM_cons, List.mapM_nil, h.find?_eq hfile]
  change (ofFile (Scope.ofDistinct files) language file >>= fun tree => pure [tree]) = _
  cases ofFile (Scope.ofDistinct files) language file <;> rfl

/-- The module of a file is the same in every schema in which the file sees the same files, and so
is the fault for which there is none. -/
theorem generateFiles_sameResult (options : Options) {files files' : List FileDescriptor}
    {file : FileDescriptor} (h : DistinctFiles files) (h' : DistinctFiles files')
    (hfile : file ∈ files) (hfile' : file ∈ files')
    (hsees : ∀ g, Sees files file g ↔ Sees files' file g) :
    SameResult (generateFiles files [file.fileName] options)
      (generateFiles files' [file.fileName] options) := by
  have hscope := resolve_sameResult h h' hfile hfile' hsees
  have htree := FileTree.ofFile_sameResult hscope options.language
  unfold generateFiles
  rw [FileTree.build_target h hfile, FileTree.build_target h' hfile']
  exact (htree.map _).map _

/-- A file with a field of a type that two files of a schema declare. -/
def ringUser : FileDescriptor :=
  { name := some "user.proto", package := "p", dependencies := ["start.proto"]
    messages := [{ name := "User", fields :=
      [{ name := "dup", number := 1, type := .message, typeName := ".p.Dup" }] }] }

/-- What the file sees depends only on the files of the ring. -/
theorem sees_ringUser {files : List FileDescriptor} (hstart : ringStart ∈ files)
    (hnext : ringNext ∈ files)
    (hnames : ∀ f ∈ files, (f.fileName = "start.proto" → f = ringStart) ∧
      (f.fileName = "next.proto" → f = ringNext) ∧ f.fileName ≠ "gone.proto") (g : FileDescriptor) :
    Sees files ringUser g ↔ g = ringUser ∨ g = ringStart ∨ g = ringNext := by
  constructor
  · intro hsees
    induction hsees with
    | refl => exact .inl rfl
    | @tail f g _ hdepends ih =>
      obtain ⟨hg, hname⟩ := hdepends
      obtain ⟨hgStart, hgNext, hgGone⟩ := hnames g hg
      right
      rcases ih with rfl | rfl | rfl
      · exact .inl (hgStart (by simpa [ringUser] using hname))
      · simp only [ringStart, List.mem_cons, List.not_mem_nil, or_false] at hname
        rcases hname with hname | hname | hname
        · exact .inr (hgNext hname)
        · exact absurd hname hgGone
        · exact .inl (hgStart hname)
      · exact .inl (hgStart (by simpa [ringNext] using hname))
  · have hstartSeen : Sees files ringUser ringStart := .single ⟨hstart, by decide⟩
    rintro (rfl | rfl | rfl)
    · exact .refl
    · exact hstartSeen
    · exact hstartSeen.tail ⟨hnext, by decide⟩

/-- The file that declares the type too is not seen, so it may as well be missing. -/
theorem generateFiles_sameResult_ringUser :
    DistinctFiles (ringUser :: ring) ∧ DistinctFiles [ringNext, ringUser, ringStart] ∧
      (∀ g, Sees (ringUser :: ring) ringUser g ↔ Sees [ringNext, ringUser, ringStart] ringUser g) ∧
      SameResult (generateFiles (ringUser :: ring) [ringUser.fileName] {})
        (generateFiles [ringNext, ringUser, ringStart] [ringUser.fileName] {}) := by
  have h : DistinctFiles (ringUser :: ring) := ⟨by decide, by decide⟩
  have h' : DistinctFiles [ringNext, ringUser, ringStart] := ⟨by decide, by decide⟩
  have hsees : ∀ g, Sees (ringUser :: ring) ringUser g ↔
      Sees [ringNext, ringUser, ringStart] ringUser g := by
    intro g
    rw [sees_ringUser (by simp [ring]) (by simp [ring]), sees_ringUser (by simp) (by simp)]
    · simp [ringNext, ringUser, ringStart, FileDescriptor.fileName]
    · simp [ring, ringNext, ringUser, ringStart, FileDescriptor.fileName]
  exact ⟨h, h', hsees, generateFiles_sameResult {} h h' (by simp) (by simp) hsees⟩

end ProtoStub
