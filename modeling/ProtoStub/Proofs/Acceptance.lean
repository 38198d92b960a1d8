import Mathlib.Data.List.Forall2
import ProtoStub.Proofs.Decision
import ProtoStub.Proofs.Isolation
import ProtoStub.Proofs.WireValues

/-!
# Which files are accepted

Resolving a file checks it on the way: extensions where they stand, groups and references field by
field, map entries after their fields, streaming method by method. `FileDescriptor.Supported` says
what all of this comes to, of the descriptors alone and at every depth, and `build_eq_ok_iff` shows
that the file is resolved exactly if it holds.

Whether a step succeeds does not hang on the imports entered so far. A step is therefore *exact*
(`Build.Exact`) for a condition if it succeeds from all imports where the condition holds and from
none where it does not; `Build.Exact.bind` puts steps together, and along with the condition it
carries what later steps need to know of the result.
-/

namespace ProtoStub

/-! ## Supported schemas -/

/-- Whether a key of a map can be of a type. -/
def FieldType.isMapKey : FieldType → Bool
  | int32 | int64 | uint32 | uint64 | sint32 | sint64 | fixed32 | fixed64 | sfixed32 | sfixed64
  | bool | string => true
  | double | float | bytes | group | message | enum => false

/-- A name that means exactly one declaration in a file. -/
def MeansOne (files : List FileDescriptor) (file : FileDescriptor) (name : String) : Prop :=
  ∃ site, Meant files file (Text.withoutDot name) = {site}

/-- The messages that a message declared under the path `namePath` consists of, itself and those
nested in it at any depth, with their full names. -/
inductive MessageDescriptor.Contains :
    String → MessageDescriptor → String → MessageDescriptor → Prop
  | self {namePath : String} {m : MessageDescriptor} : Contains namePath m (namePath ++ m.name) m
  | nested {namePath : String} {m inner part : MessageDescriptor} {fqName : String}
      (stands : inner ∈ m.nested)
      (contains : Contains (namePath ++ m.name ++ ".") inner fqName part) :
      Contains namePath m fqName part

/-- The fields of a map entry. -/
def IsEntry (fields : List FieldDescriptor) : Prop :=
  ∃ key value, fields = [key, value] ∧ key.name = "key" ∧ key.number = 1 ∧
    value.name = "value" ∧ value.number = 2 ∧ key.type.isMapKey = true

section

variable (files : List FileDescriptor) (file : FileDescriptor)

/-- A field of the message `m` with the full name `fqName` that is supported. A name that means
only one declaration and is the full name of a nested message means that message. -/
structure FieldDescriptor.Supported (fqName : String) (m : MessageDescriptor)
    (field : FieldDescriptor) : Prop where
  noGroup : field.type ≠ .group
  resolves : field.type = .message ∨ field.type = .enum → MeansOne files file field.typeName
  repeatsEntry : field.type = .message → ∀ entry ∈ m.nested, entry.isMapEntry = true →
    Text.withoutDot field.typeName = fqName ++ "." ++ entry.name → field.label = .repeated

/-- A message that is supported, those nested in it apart. -/
structure MessageDescriptor.Supported (fqName : String) (m : MessageDescriptor) : Prop where
  noExtension : m.extensionFields = []
  fields : ∀ field ∈ m.fields, field.Supported files file fqName m
  entry : m.isMapEntry = true → IsEntry m.fields

/-- A method that is supported. -/
structure MethodDescriptor.Supported (m : MethodDescriptor) : Prop where
  noStreaming : m.clientStreaming = false ∧ m.serverStreaming = false
  resolves : MeansOne files file m.inputType ∧ MeansOne files file m.outputType

/-- A file of a schema that is supported. -/
structure FileDescriptor.Supported : Prop where
  dialect : file.dialect = "" ∨ file.dialect = "proto2" ∨ file.dialect = "proto3"
  noExtension : file.extensionFields = []
  messages : ∀ top ∈ file.messages, ∀ fqName m, top.Contains file.namePath fqName m →
    m.Supported files file fqName
  methods : ∀ service ∈ file.services, ∀ m ∈ service.methods, m.Supported files file

end

theorem MessageDescriptor.forall_contains {P : String → MessageDescriptor → Prop}
    {namePath : String} {m : MessageDescriptor} :
    (∀ fqName part, m.Contains namePath fqName part → P fqName part) ↔
      P (namePath ++ m.name) m ∧ ∀ inner ∈ m.nested, ∀ fqName part,
        inner.Contains (namePath ++ m.name ++ ".") fqName part → P fqName part := by
  constructor
  · intro h
    refine ⟨h _ _ .self, ?_⟩
    intro inner hinner fqName part hpart
    exact h _ _ (.nested hinner hpart)
  · rintro ⟨hself, hnested⟩ fqName part hpart
    cases hpart with
    | self => exact hself
    | nested hinner hpart => exact hnested _ hinner _ _ hpart

/-! ## Exact steps -/

/-- From any imports a step succeeds if the condition holds and only then, with a result that has
a property. -/
structure Build.Exact {α : Type} (x : Build α) (P : Prop) (Q : α → Prop) : Prop where
  succeeds : P → ∀ s, ∃ a s', x.run s = .ok (a, s')
  holds : ∀ s a s', x.run s = .ok (a, s') → P ∧ Q a

namespace Build.Exact

variable {α β : Type} {P P' : Prop} {Q : α → Prop}

theorem pure {a : α} (h : Q a) : Exact (Pure.pure a) True Q where
  succeeds := fun _ s => ⟨a, s, rfl⟩
  holds := by
    intro s b s' hrun
    obtain rfl := Build.eq_of_pure hrun
    exact ⟨trivial, h⟩

theorem lift (x : Except Error α) :
    Exact (liftM x) (∃ a, x = .ok a) (fun a => x = .ok a) where
  succeeds := by
    rintro ⟨a, rfl⟩ s
    exact ⟨a, s, rfl⟩
  holds := by
    intro s a s' h
    have hx := Build.eq_ok_of_lift h
    exact ⟨⟨a, hx⟩, hx⟩

theorem bind {x : Build α} {f : α → Build β} {C : Prop} {R : β → Prop} (hx : Exact x P Q)
    (hf : ∀ a, Q a → Exact (f a) C R) : Exact (x >>= f) (P ∧ C) R where
  succeeds := by
    rintro ⟨hP, hC⟩ s
    obtain ⟨a, t, ha⟩ := hx.succeeds hP s
    obtain ⟨b, s', hb⟩ := (hf a (hx.holds s a t ha).2).succeeds hC t
    refine ⟨b, s', ?_⟩
    change (x.run s >>= fun r => (f r.1).run r.2) = .ok (b, s')
    rw [ha]
    exact hb
  holds := by
    intro s b s' h
    obtain ⟨a, t, ha, hb⟩ := Build.exists_of_bind h
    obtain ⟨hP, hQ⟩ := hx.holds s a t ha
    obtain ⟨hC, hR⟩ := (hf a hQ).holds t b s' hb
    exact ⟨⟨hP, hC⟩, hR⟩

theorem imp {x : Build α} {R : α → Prop} (hx : Exact x P Q) (hP : P ↔ P')
    (hQ : ∀ a, Q a → R a) : Exact x P' R where
  succeeds := fun h => hx.succeeds (hP.2 h)
  holds := by
    intro s a s' h
    obtain ⟨hp, hq⟩ := hx.holds s a s' h
    exact ⟨hP.1 hp, hQ a hq⟩

theorem map {x : Build α} {R : β → Prop} {f : α → β} (hx : Exact x P Q)
    (hf : ∀ a, Q a → R (f a)) : Exact (f <$> x) P R := by
  refine (hx.bind (f := fun a => Pure.pure (f a)) fun a ha => pure (hf a ha)).imp ?_ fun _ h => h
  simp

/-- A step that throws is exact for whatever does not hold. -/
theorem throw {e : Error} {f : α → Build β} {R : β → Prop} (h : ¬ P) :
    Exact ((MonadExcept.throw e : Build α) >>= f) P R where
  succeeds := fun hP => absurd hP h
  holds := fun _ _ _ hrun => by cases hrun

theorem mapM {f : α → Build β} {P : α → Prop} {R : α → β → Prop} {xs : List α}
    (hf : ∀ x ∈ xs, Exact (f x) (P x) (R x)) :
    Exact (xs.mapM f) (∀ x ∈ xs, P x) (List.Forall₂ R xs) := by
  induction xs with
  | nil =>
    rw [List.mapM_nil]
    exact (pure .nil).imp (by simp) fun _ h => h
  | cons x xs ih =>
    rw [List.forall_mem_cons] at hf
    rw [List.mapM_cons]
    have hall : Exact (f x >>= fun b => xs.mapM f >>= fun bs => Pure.pure (b :: bs))
        (P x ∧ (∀ x ∈ xs, P x) ∧ True) (List.Forall₂ R (x :: xs)) :=
      hf.1.bind fun b hb => (ih hf.2).bind fun bs hbs => pure (.cons hb hbs)
    refine hall.imp ?_ fun _ h => h
    simp

/-- The numbers that go along with the items of a list have no part in whether a traversal
succeeds. -/
theorem mapM_zipIdx {f : α × Nat → Build β} {P : α → Prop} {R : α → β → Prop} {xs : List α}
    (hf : ∀ x ∈ xs, ∀ i, Exact (f (x, i)) (P x) (R x)) :
    Exact (xs.zipIdx.mapM f) (∀ x ∈ xs, P x) (List.Forall₂ R xs) := by
  have hmem : ∀ p ∈ xs.zipIdx, p.1 ∈ xs := by
    intro p hp
    exact List.fst_mem_of_mem_zipIdx hp
  have hall : Exact (xs.zipIdx.mapM f) (∀ p ∈ xs.zipIdx, P p.1)
      (List.Forall₂ (fun p => R p.1) xs.zipIdx) := mapM fun p hp => hf p.1 (hmem p hp) p.2
  refine hall.imp ?_ ?_
  · conv_rhs => rw [← List.zipIdx_map_fst 0 xs, List.forall_mem_map]
  · intro bs hbs
    rw [← List.zipIdx_map_fst 0 xs]
    exact List.forall₂_map_left_iff.2 hbs

end Build.Exact

/-! ## Shapes and entries -/

theorem FieldShape.of_eq_ok_iff {kind : FieldKind} (repeated optional : Bool) :
    (∃ shape, FieldShape.of kind repeated optional = .ok shape) ↔ kind ≠ .group := by
  constructor
  · rintro ⟨shape, hshape⟩
    exact (FieldShape.of_eq_ok hshape).1
  · intro hkind
    cases kind with
    | group => exact absurd rfl hkind
    | _ => exact ⟨_, rfl⟩

/-- What the kind of a field has from its descriptor. -/
structure FieldDescriptor.OfKind (field : FieldDescriptor) (kind : FieldKind) : Prop where
  group : kind = .group ↔ field.type = .group
  key : kind.isMapKey = field.type.isMapKey
  message : field.type = .message ↔ ∃ target, kind = .message target
  target : ∀ target, kind = .message target → target.fqName = Text.withoutDot field.typeName

/-- What is kept of a descriptor in its field. -/
structure FieldDescriptor.Gives (field : FieldDescriptor) (result : Field) : Prop where
  name : result.info.protoName = field.name
  number : result.info.number = UInt32.ofInt field.number.toInt
  kind : result.info.kind ≠ .group
  key : result.info.kind.isMapKey = field.type.isMapKey

theorem FieldDescriptor.Gives.number_eq_iff {field : FieldDescriptor} {result : Field}
    (h : field.Gives result) {n : Int32} :
    result.info.number = UInt32.ofInt n.toInt ↔ field.number = n := by
  rw [h.number]
  constructor
  · intro heq
    rw [← Wire.int32_of_uint32_ofInt field.number, heq, Wire.int32_of_uint32_ofInt]
  · intro heq
    rw [heq]

namespace MessageDecl

theorem keyAndValue_of_isEntry {fields : List FieldDescriptor} {decl : MessageDecl}
    (h : List.Forall₂ FieldDescriptor.Gives fields decl.fields) (hentry : IsEntry fields) :
    ∃ pair, decl.keyAndValue = .ok pair := by
  obtain ⟨k, v, rfl, -⟩ := hentry
  obtain ⟨key, rest, hkey, hrest, hfields⟩ := List.forall₂_cons_left_iff.1 h
  obtain ⟨value, rest, hvalue, hnil, rfl⟩ := List.forall₂_cons_left_iff.1 hrest
  obtain rfl := List.forall₂_nil_left_iff.1 hnil
  obtain ⟨keyShape, hkeyShape⟩ := (FieldShape.of_eq_ok_iff false false).2 hkey.kind
  obtain ⟨valueShape, hvalueShape⟩ := (FieldShape.of_eq_ok_iff false false).2 hvalue.kind
  simp only [keyAndValue, hfields, entryField, hkeyShape, hvalueShape]
  exact ⟨_, rfl⟩

/-- The check of a map entry says of its fields what there is to say of their descriptors. -/
theorem checkMapEntry_eq_ok_iff {fields : List FieldDescriptor} {results : List Field}
    (h : List.Forall₂ FieldDescriptor.Gives fields results) (fqName : String) :
    checkMapEntry fqName results = .ok () ↔ IsEntry fields := by
  constructor
  · intro hcheck
    unfold checkMapEntry at hcheck
    split at hcheck
    next key value =>
      obtain ⟨k, rest, hkey, hrest, rfl⟩ := List.forall₂_cons_right_iff.1 h
      obtain ⟨v, rest, hvalue, hnil, rfl⟩ := List.forall₂_cons_right_iff.1 hrest
      obtain rfl := List.forall₂_nil_right_iff.1 hnil
      split at hcheck
      next hparts =>
        split at hcheck
        next hmapKey =>
          obtain ⟨hk, hone, hv, htwo⟩ := hparts
          refine ⟨k, v, rfl, hkey.name.symm.trans hk, hkey.number_eq_iff.1 hone,
            hvalue.name.symm.trans hv, hvalue.number_eq_iff.1 htwo, ?_⟩
          rw [← hkey.key, hmapKey]
        · cases hcheck
      · cases hcheck
    · cases hcheck
  · rintro ⟨k, v, rfl, hk, hone, hv, htwo, hmapKey⟩
    obtain ⟨key, rest, hkey, hrest, rfl⟩ := List.forall₂_cons_left_iff.1 h
    obtain ⟨value, rest, hvalue, hnil, rfl⟩ := List.forall₂_cons_left_iff.1 hrest
    obtain rfl := List.forall₂_nil_left_iff.1 hnil
    have hone' := hkey.number_eq_iff.2 hone
    have htwo' := hvalue.number_eq_iff.2 htwo
    exact (if_pos ⟨hkey.name.trans hk, hone', hvalue.name.trans hv, htwo'⟩).trans
      (if_pos (hkey.key.trans hmapKey))

end MessageDecl

/-- What is kept of a message declared under the path `namePath` in its declaration. -/
inductive MessageDescriptor.Gives (namePath : String) (m : MessageDescriptor) : Decl → Prop
  | intro {decl : MessageDecl} {children : List Decl} (fqName : decl.fqName = namePath ++ m.name)
      (isMapEntry : decl.isMapEntry = m.isMapEntry)
      (pair : decl.isMapEntry = true → ∃ pair, decl.keyAndValue = .ok pair) :
      Gives namePath m (.message decl children)

theorem exists_of_forall₂ {α β : Type} {R : α → β → Prop} {as : List α} {bs : List β}
    (h : List.Forall₂ R as bs) : ∀ b ∈ bs, ∃ a ∈ as, R a b := by
  induction h with
  | nil => simp
  | @cons a b as bs hab _ ih =>
    rw [List.forall_mem_cons]
    refine ⟨⟨a, List.mem_cons_self, hab⟩, ?_⟩
    intro b' hb'
    obtain ⟨a', ha', hab'⟩ := ih b' hb'
    exact ⟨a', List.mem_cons_of_mem a ha', hab'⟩

namespace FileContext

/-! ## Fields -/

section

variable {files : List FileDescriptor} {file : FileDescriptor} {ctx : FileContext}

theorem exact_refuseExtensions (namePath : String) (extensionFields : List FieldDescriptor) :
    Build.Exact (liftM (refuseExtensions namePath extensionFields)) (extensionFields = [])
      fun _ => True := by
  refine (Build.Exact.lift _).imp ?_ fun _ _ => trivial
  cases extensionFields with
  | nil => simp [refuseExtensions]
  | cons e rest => simp [refuseExtensions]

/-- A field refers to a map entry if it names a nested message that is one, and the entry then has
a key and a value. -/
theorem mapEntryOf?_cases {namePath : String} {nested : List MessageDescriptor}
    {enums messages : List Decl} (henums : ∀ d ∈ enums, d.asMapEntry = none)
    (h : List.Forall₂ (MessageDescriptor.Gives namePath) nested messages) (target : TypeRef) :
    (mapEntryOf? (.message target) (enums ++ messages) = none ∧
      ∀ m ∈ nested, m.isMapEntry = true → target.fqName ≠ namePath ++ m.name) ∨
    ∃ entry pair, mapEntryOf? (.message target) (enums ++ messages) = some entry ∧
      entry.keyAndValue = .ok pair ∧
      ∃ m ∈ nested, m.isMapEntry = true ∧ target.fqName = namePath ++ m.name := by
  cases hfind : mapEntryOf? (.message target) (enums ++ messages) with
  | none =>
    refine .inl ⟨rfl, ?_⟩
    intro m hm hentry hfqName
    obtain ⟨d, hd, hgives⟩ := exists_of_forall₂ h.flip m hm
    cases hgives with | @intro decl children hname hmap _ => ?_
    have hmem : decl ∈ (enums ++ messages).filterMap Decl.asMapEntry :=
      List.mem_filterMap.2 ⟨_, List.mem_append_right _ hd, if_pos (hmap.trans hentry)⟩
    exact absurd (hname.trans hfqName.symm) (by simpa using List.find?_eq_none.1 hfind decl hmem)
  | some entry =>
    obtain ⟨children, hmem, hmap⟩ := mapEntryOf?_eq_some hfind
    have hname : entry.fqName = target.fqName := by simpa using List.find?_some hfind
    rcases List.mem_append.1 hmem with hmem | hmem
    · have hnone := henums _ hmem
      simp [Decl.asMapEntry, hmap] at hnone
    · obtain ⟨m, hm, hgives⟩ := exists_of_forall₂ h _ hmem
      cases hgives with | intro hfqName hmap' hpair => ?_
      obtain ⟨pair, hpair⟩ := hpair hmap
      exact .inr ⟨entry, pair, rfl, hpair, m, hm, hmap'.symm.trans hmap,
        hname.symm.trans hfqName⟩

/-- A reference to an entry with a key and a value is a map if it is repeated. -/
theorem exact_asMap {fieldName : String} {field : FieldDescriptor} {info : FieldInfo}
    {entry : MessageDecl} {pair : Field × Field} (hpair : entry.keyAndValue = .ok pair)
    (hgives : field.Gives (.plain info)) :
    Build.Exact (liftM (asMap fieldName info entry)) (info.repeated = true) field.Gives := by
  refine (Build.Exact.lift _).imp ?_ ?_
  · constructor
    · rintro ⟨result, hresult⟩
      by_contra hrepeated
      rw [asMap, if_neg hrepeated] at hresult
      cases hresult
    · intro hrepeated
      rw [asMap, if_pos hrepeated, hpair]
      exact ⟨_, rfl⟩
  · intro result hresult
    unfold asMap at hresult
    split at hresult
    · rw [hpair] at hresult
      cases hresult
      exact ⟨hgives.name, hgives.number, hgives.kind, hgives.key⟩
    · cases hresult

variable (hfiles : DistinctFiles files) (hfile : file ∈ files)
  (hscope : ctx.scope = Scope.ofDistinct files) (hname : ctx.file = file.fileName)

include hfiles hfile hscope hname

theorem exact_resolve (name : String) :
    Build.Exact (ctx.resolve name) (MeansOne files file name)
      fun ref => ref.fqName = Text.withoutDot name := by
  unfold FileContext.resolve
  rw [hscope, hname]
  refine ((Build.Exact.lift _).bind (C := True) fun ref href => ⟨?_, ?_⟩).imp ?_ fun _ h => h
  · exact fun _ s => ⟨_, _, rfl⟩
  · intro s a s' hrun
    cases hrun
    obtain ⟨site, hsite, rfl⟩ := (resolve_eq_ok_iff hfiles hfile name ref).1 href
    have hmem : site ∈ Meant files file (Text.withoutDot name) := by rw [hsite]; rfl
    exact ⟨trivial, hmem.2.1⟩
  · simp only [resolve_eq_ok_iff hfiles hfile, and_true]
    constructor
    · rintro ⟨_, site, hsite, -⟩
      exact ⟨site, hsite⟩
    · rintro ⟨site, hsite⟩
      exact ⟨_, site, hsite, rfl⟩

theorem exact_ofType (field : FieldDescriptor) :
    Build.Exact (FieldKind.ofType (ctx.resolve field.typeName) field.type)
      (field.type = .message ∨ field.type = .enum → MeansOne files file field.typeName)
      field.OfKind := by
  have hresolve := exact_resolve hfiles hfile hscope hname field.typeName
  cases htype : field.type with
  | message =>
    refine (hresolve.map ?_).imp (by simp) fun _ h => h
    intro target htarget
    refine ⟨by simp [htype], by rw [htype]; rfl, by simp [htype], ?_⟩
    rintro _ ⟨⟩
    exact htarget
  | enum =>
    refine (hresolve.map ?_).imp (by simp) fun _ h => h
    intro target htarget
    refine ⟨by simp [htype], by rw [htype]; rfl, by simp [htype], ?_⟩
    rintro _ ⟨⟩
  | _ =>
    refine (Build.Exact.pure ?_).imp (by simp) fun _ h => h
    refine ⟨by simp [htype], by rw [htype]; rfl, by simp [htype], ?_⟩
    rintro _ ⟨⟩

theorem exact_field {fqName : String} {m : MessageDescriptor} {enums messages : List Decl}
    (henums : ∀ d ∈ enums, d.asMapEntry = none)
    (hnested : List.Forall₂ (MessageDescriptor.Gives (fqName ++ ".")) m.nested messages)
    (oneofs : List String) (comment : Option String) (field : FieldDescriptor) :
    Build.Exact (ctx.field fqName oneofs (enums ++ messages) comment field)
      (field.Supported files file fqName m) field.Gives := by
  have hkind := exact_ofType hfiles hfile hscope hname field
  unfold FileContext.field
  refine (hkind.bind (C := field.type ≠ .group ∧ (field.type = .message →
    ∀ entry ∈ m.nested, entry.isMapEntry = true →
      Text.withoutDot field.typeName = fqName ++ "." ++ entry.name → field.label = .repeated))
    ?_).imp ?_ fun _ h => h
  · rintro kind ⟨hgroup, hkey, hmessage, htarget⟩
    by_cases hkindGroup : kind = .group
    · subst hkindGroup
      exact .throw fun h => h.1 (hgroup.1 rfl)
    obtain ⟨shape, hshape⟩ := (FieldShape.of_eq_ok_iff (decide (field.label = .repeated))
      (!decide (field.label = .repeated) && field.explicitPresence oneofs ctx.dialect)).2 hkindGroup
    simp only [hshape, pure_bind]
    have hgives : field.Gives (.plain (ctx.fieldInfo oneofs comment field kind shape)) :=
      ⟨rfl, rfl, hkindGroup, hkey⟩
    have hnoGroup : field.type ≠ .group := mt hgroup.2 hkindGroup
    -- Only a field of a message type can turn into a map.
    cases kind with
    | message target =>
      have htype := hmessage.2 ⟨target, rfl⟩
      have htarget := htarget target rfl
      rcases mapEntryOf?_cases henums hnested target with
        ⟨hnone, hnoEntry⟩ | ⟨entry, pair, hsome, hpair, d, hd, hentry, hfqName⟩
      · rw [hnone]
        refine (Build.Exact.pure hgives).imp (iff_of_true trivial ⟨hnoGroup, ?_⟩) fun _ h => h
        intro _ d hd hentry heq
        exact absurd (htarget.trans heq) (hnoEntry d hd hentry)
      · rw [hsome]
        refine (exact_asMap hpair hgives).imp ⟨?_, ?_⟩ fun _ h => h
        · intro hrepeated
          exact ⟨hnoGroup, fun _ _ _ _ _ => of_decide_eq_true hrepeated⟩
        · rintro ⟨-, hrepeats⟩
          exact decide_eq_true (hrepeats htype d hd hentry (htarget.symm.trans hfqName))
    | _ =>
      refine (Build.Exact.pure hgives).imp (iff_of_true trivial ⟨hnoGroup, ?_⟩) fun _ h => h
      intro htype
      obtain ⟨_, ⟨⟩⟩ := hmessage.1 htype
  · constructor
    · rintro ⟨hresolves, hnoGroup, hrepeats⟩
      exact ⟨hnoGroup, hresolves, hrepeats⟩
    · rintro ⟨hnoGroup, hresolves, hrepeats⟩
      exact ⟨hresolves, hnoGroup, hrepeats⟩

/-! ## Messages -/

omit hfiles hfile hscope hname in
theorem exact_messages {messages : List MessageDescriptor}
    (hmessages : ∀ m ∈ messages, ∀ namePath path, Build.Exact (ctx.message namePath path m)
      (∀ fqName part, m.Contains namePath fqName part → part.Supported files file fqName)
      (m.Gives namePath)) (namePath : String) (path : List Int32) (sort : Int32) (index : Nat) :
    Build.Exact (ctx.messages namePath path sort index messages)
      (∀ m ∈ messages, ∀ fqName part, m.Contains namePath fqName part →
        part.Supported files file fqName)
      (List.Forall₂ (MessageDescriptor.Gives namePath) messages) := by
  induction messages generalizing index with
  | nil =>
    unfold messages
    exact (Build.Exact.pure .nil).imp (by simp) fun _ h => h
  | cons m rest ih =>
    rw [List.forall_mem_cons] at hmessages
    unfold messages
    refine ((hmessages.1 namePath _).bind fun d hd =>
      (ih hmessages.2 (index + 1)).bind fun ds hds =>
        Build.Exact.pure (.cons hd hds)).imp ?_ fun _ h => h
    rw [List.forall_mem_cons, and_true]

theorem exact_message (m : MessageDescriptor) : ∀ namePath path,
    Build.Exact (ctx.message namePath path m)
      (∀ fqName part, m.Contains namePath fqName part → part.Supported files file fqName)
      (m.Gives namePath) := by
  induction m using MessageDescriptor.induct with
  | step m ih =>
    intro namePath path
    rw [MessageDescriptor.forall_contains]
    obtain ⟨name, fields, extensionFields, nested, enums, oneofs, isMapEntry⟩ := m
    unfold message
    have henums : ∀ d ∈ ctx.enumDecls (namePath ++ name ++ ".") path 4 enums,
        d.asMapEntry = none := by
      intro d hd
      obtain ⟨_, -, rfl⟩ := List.mem_map.1 hd
      rfl
    -- The nested messages come before the fields, which may refer to them as map entries.
    refine ((exact_refuseExtensions _ _).bind fun _ _ => (exact_messages ih _ path 3 0).bind
      fun decls hdecls => (Build.Exact.mapM_zipIdx fun f _ i => exact_field hfiles hfile hscope
        hname henums hdecls oneofs _ f).bind (C := isMapEntry = true → IsEntry fields)
          fun results hresults => ?_).imp ?_ fun _ h => h
    · have hcheck := MessageDecl.checkMapEntry_eq_ok_iff hresults (namePath ++ name)
      cases isMapEntry with
      | true =>
        refine ((Build.Exact.lift _).bind (C := True) fun _ hunit => ?_).imp ?_ fun _ h => h
        · refine Build.Exact.pure ⟨rfl, rfl, fun _ => ?_⟩
          exact MessageDecl.keyAndValue_of_isEntry hresults (hcheck.1 hunit)
        · simp [hcheck]
      | false => exact (Build.Exact.pure ⟨rfl, rfl, nofun⟩).imp (by simp) fun _ h => h
    · constructor
      · rintro ⟨hextension, hnested, hfields, hentry⟩
        exact ⟨⟨hextension, hfields, hentry⟩, hnested⟩
      · rintro ⟨⟨hextension, hfields, hentry⟩, hnested⟩
        exact ⟨hextension, hnested, hfields, hentry⟩

/-! ## Services -/

theorem exact_method (serviceName : String) (comment : Option String) (m : MethodDescriptor) :
    Build.Exact (ctx.method serviceName comment m) (m.Supported files file) fun _ => True := by
  have hinput := exact_resolve hfiles hfile hscope hname m.inputType
  have houtput := exact_resolve hfiles hfile hscope hname m.outputType
  unfold method
  by_cases hstreaming : (m.clientStreaming || m.serverStreaming) = true
  · rw [if_pos hstreaming]
    refine .throw fun h => ?_
    simp [h.noStreaming] at hstreaming
  · rw [if_neg hstreaming]
    refine (hinput.bind fun input _ => houtput.bind fun output _ =>
      Build.Exact.pure (a := MethodDecl.mk m.name input output comment) trivial).imp ?_ fun _ h => h
    constructor
    · rintro ⟨hin, hout, -⟩
      exact ⟨by simpa using hstreaming, hin, hout⟩
    · rintro ⟨-, hin, hout⟩
      exact ⟨hin, hout, trivial⟩

theorem exact_service (path : List Int32) (s : ServiceDescriptor) :
    Build.Exact (ctx.service path s) (∀ m ∈ s.methods, m.Supported files file) fun _ => True := by
  unfold service
  refine ((Build.Exact.mapM_zipIdx fun m _ i => exact_method hfiles hfile hscope hname _ _ m).bind
    fun _ _ => Build.Exact.pure trivial).imp ?_ fun _ h => h
  rw [and_true]

/-- All that a file declares, its enums apart, which are always resolved. -/
theorem exact_declarations :
    Build.Exact (do
        let messages ← ctx.messages file.namePath [] 4 0 file.messages
        let services ← file.services.zipIdx.mapM fun (s, i) => ctx.service (child [] 6 i) s
        return (messages, services))
      ((∀ top ∈ file.messages, ∀ fqName m, top.Contains file.namePath fqName m →
          m.Supported files file fqName) ∧
        ∀ service ∈ file.services, ∀ m ∈ service.methods, m.Supported files file)
      fun _ => True := by
  have hmessages := exact_messages
    (fun m (_ : m ∈ file.messages) => exact_message hfiles hfile hscope hname m)
    file.namePath [] 4 0
  refine (hmessages.bind fun _ _ => (Build.Exact.mapM_zipIdx
    fun s _ i => exact_service hfiles hfile hscope hname _ s).bind
      fun _ _ => Build.Exact.pure trivial).imp ?_ fun _ h => h
  rw [and_true]

end

end FileContext

/-! ## Files -/

theorem Dialect.ofName_eq_ok_iff (name : String) :
    (∃ dialect, ofName name = .ok dialect) ↔ name = "" ∨ name = "proto2" ∨ name = "proto3" := by
  constructor
  · rintro ⟨dialect, h⟩
    unfold ofName at h
    split at h <;> simp_all
  · rintro (rfl | rfl | rfl) <;> exact ⟨_, rfl⟩

theorem FileTree.ofFile_eq_ok_iff {files : List FileDescriptor} {file : FileDescriptor}
    (h : DistinctFiles files) (hfile : file ∈ files) (language : Language) :
    (∃ tree, ofFile (Scope.ofDistinct files) language file = .ok tree) ↔ file.Supported files := by
  have hdialect := Dialect.ofName_eq_ok_iff file.dialect
  have hextension : FileContext.refuseExtensions file.namePath file.extensionFields = .ok () ↔
      file.extensionFields = [] := by
    cases file.extensionFields <;> simp [FileContext.refuseExtensions]
  constructor
  · rintro ⟨tree, htree⟩
    obtain ⟨dialect, hof, htree⟩ := Except.exists_of_bind htree
    obtain ⟨_, hrefuse, htree⟩ := Except.exists_of_bind htree
    obtain ⟨⟨_, imports⟩, hrun, -⟩ := Except.exists_of_bind htree
    obtain ⟨⟨hmessages, hmethods⟩, -⟩ :=
      (FileContext.exact_declarations h hfile rfl rfl).holds _ _ _ hrun
    exact ⟨hdialect.1 ⟨dialect, hof⟩, hextension.1 hrefuse, hmessages, hmethods⟩
  · rintro ⟨hname, hnone, hmessages, hmethods⟩
    obtain ⟨dialect, hof⟩ := hdialect.2 hname
    let ctx : FileContext :=
      { scope := Scope.ofDistinct files, file := file.fileName, package := file.package,
        dialect := dialect, remarks := file.remarks }
    have hctx : ctx.scope = Scope.ofDistinct files := rfl
    obtain ⟨result, imports, hrun⟩ := (FileContext.exact_declarations h hfile hctx rfl).succeeds
      ⟨hmessages, hmethods⟩ (emptyImports file language)
    refine ⟨{ name := file.fileName, package := file.package, dialect := dialect,
              types := ctx.enumDecls file.namePath [] 5 file.enums ++ result.1,
              services := result.2, imports := imports }, ?_⟩
    simp only [ofFile, hof, hextension.2 hnone, bind, Except.bind]
    simp only [ctx, bind] at hrun
    rw [hrun]
    rfl

/-- A file of a schema is resolved exactly if it is supported. -/
theorem build_eq_ok_iff {files : List FileDescriptor} {file : FileDescriptor}
    (h : DistinctFiles files) (hfile : file ∈ files) (language : Language) :
    (∃ trees, FileTree.build files [file.fileName] language = .ok trees) ↔
      file.Supported files := by
  rw [← FileTree.ofFile_eq_ok_iff h hfile language, FileTree.build_target h hfile]
  cases FileTree.ofFile (Scope.ofDistinct files) language file <;> simp [Except.map]

/-- The grove is supported with heights that are bytes, and cannot be resolved with heights that
are groups. -/
theorem build_grove :
    DistinctFiles [Codec.groveFile .bytes] ∧ DistinctFiles [Codec.groveFile .group] ∧
      (Codec.groveFile .bytes).Supported [Codec.groveFile .bytes] ∧
      ¬ ∃ trees, FileTree.build [Codec.groveFile .group] ["grove.proto"] .javaScript =
        .ok trees := by
  have hbytes : DistinctFiles [Codec.groveFile .bytes] := ⟨by decide, by decide⟩
  have hgroup : DistinctFiles [Codec.groveFile .group] := ⟨by decide, by decide⟩
  refine ⟨hbytes, hgroup, (build_eq_ok_iff hbytes List.mem_cons_self .javaScript).1 ?_,
    mt (build_eq_ok_iff hgroup List.mem_cons_self .javaScript).1 ?_⟩
  · have hok :
        (FileTree.build [Codec.groveFile .bytes] ["grove.proto"] .javaScript).isOk = true := by
      cbv
    cases hbuild : FileTree.build [Codec.groveFile .bytes] ["grove.proto"] .javaScript with
    | error e => rw [hbuild] at hok; cases hok
    | ok trees => exact ⟨trees, hbuild⟩
  · intro h
    have htree := h.messages _ List.mem_cons_self _ _ .self
    exact (htree.fields _ List.mem_cons_self).noGroup rfl

end ProtoStub
