import Mathlib.Data.List.Permutation
import Mathlib.Data.Set.Insert
import ProtoStub.Proofs.Visibility

/-!
# Names mean what is declared

A name is resolved by collecting all declarations of all files in one list and picking those that
have the name and can be seen. This file says what a declaration is without that list: it stands
at a place in the tree of descriptors (`Declares`), and its full name spells the way to it. The
list turns out to hold every such place once, in the order of the descriptors (`sites`), so that
to resolve a name is to count the places that it can mean (`Meant`).

Places are compared by their positions, which lead from the file down to the declaration and are
ordered lexicographically: enums stand before messages, and a message before what is nested in it.
-/

namespace ProtoStub

/-! ## Places -/

/-- Where a declaration stands below a file or a message. -/
structure Place where
  /-- At every level 0 for an enum or 1 for a message, and the number among those. -/
  position : List Nat
  /-- The names of the messages around it, from the outside in. -/
  outer : List String
  name : String
  kind : DeclKind

namespace Place

/-- The dotted path to the declaration. -/
def path (p : Place) : String := ".".intercalate (p.outer ++ [p.name])

/-- The place as seen from around the message that it is in. -/
def within (p : Place) (index : Nat) (name : String) : Place :=
  { p with position := 1 :: index :: p.position, outer := name :: p.outer }

/-- The order of declarations. -/
def Before (p q : Place) : Prop := List.Lex (· < ·) p.position q.position

/-- The entry for the declaration if the names around it start with `scope`. -/
def declaration (file package scope : String) (p : Place) : Declaration :=
  ⟨scope ++ p.path, file, package, p.kind⟩

theorem path_within (p : Place) (index : Nat) (name : String) :
    (p.within index name).path = name ++ "." ++ p.path := by
  have hne : p.outer ++ [p.name] ≠ [] := by simp
  exact String.intercalate_cons_of_ne_nil hne

theorem declaration_within (file package scope : String) (p : Place) (index : Nat)
    (name : String) :
    (p.within index name).declaration file package scope =
      p.declaration file package (scope ++ name ++ ".") := by
  simp only [declaration, path_within, String.append_assoc]
  rfl

theorem Before.within {p q : Place} (h : p.Before q) (index : Nat) (name : String) :
    (p.within index name).Before (q.within index name) :=
  .cons (.cons h)

end Place

/-- The declarations of a file or a message, given the enums and the messages that stand directly
in it. -/
inductive Declares : List EnumDescriptor → List MessageDescriptor → Place → Prop
  | enum {enums : List EnumDescriptor} {messages : List MessageDescriptor} {i : Nat}
      {e : EnumDescriptor} (stands : enums[i]? = some e) :
      Declares enums messages ⟨[0, i], [], e.name, .enum⟩
  | message {enums : List EnumDescriptor} {messages : List MessageDescriptor} {i : Nat}
      {m : MessageDescriptor} (stands : messages[i]? = some m) :
      Declares enums messages ⟨[1, i], [], m.name, .message⟩
  | nested {enums : List EnumDescriptor} {messages : List MessageDescriptor} {i : Nat}
      {m : MessageDescriptor} {p : Place} (stands : messages[i]? = some m)
      (declares : Declares m.enums m.nested p) :
      Declares enums messages (p.within i m.name)

/-! ## All places in order -/

/-- Induction over a message: what holds wherever it holds of the messages in it. -/
@[elab_as_elim] theorem MessageDescriptor.induct {motive : MessageDescriptor → Prop}
    (step : ∀ m, (∀ inner ∈ m.nested, motive inner) → motive m) (m : MessageDescriptor) :
    motive m :=
  step m fun inner _ => MessageDescriptor.induct step inner
termination_by sizeOf m
decreasing_by
  have := List.sizeOf_lt_of_mem ‹inner ∈ m.nested›
  cases m
  simp only [MessageDescriptor.mk.sizeOf_spec] at this ⊢
  omega

/-- The places of enums. -/
def placesOfEnums (enums : List EnumDescriptor) : List Place :=
  enums.zipIdx.map fun (e, i) => ⟨[0, i], [], e.name, .enum⟩

mutual

/-- The place of a message with a number, and the places in it. -/
def placesOfMessage (index : Nat) : MessageDescriptor → List Place
  | ⟨name, _, _, nested, enums, _, _⟩ =>
    ⟨[1, index], [], name, .message⟩ ::
      (placesOfEnums enums ++ placesOfMessages 0 nested).map (·.within index name)

/-- The places of messages that are numbered from `index` on, and the places in them. -/
def placesOfMessages (index : Nat) : List MessageDescriptor → List Place
  | [] => []
  | m :: rest => placesOfMessage index m ++ placesOfMessages (index + 1) rest

end

/-- The places below a file or a message. -/
def places (enums : List EnumDescriptor) (messages : List MessageDescriptor) : List Place :=
  placesOfEnums enums ++ placesOfMessages 0 messages

theorem placesOfMessage_eq (index : Nat) (m : MessageDescriptor) :
    placesOfMessage index m = ⟨[1, index], [], m.name, .message⟩ ::
      (places m.enums m.nested).map (·.within index m.name) := by
  cases m
  rw [placesOfMessage]
  rfl

theorem mem_placesOfEnums {enums : List EnumDescriptor} {p : Place} :
    p ∈ placesOfEnums enums ↔ ∃ i e, enums[i]? = some e ∧ p = ⟨[0, i], [], e.name, .enum⟩ := by
  simp only [placesOfEnums, List.mem_map, Prod.exists, List.mem_zipIdx_iff_getElem?]
  constructor
  · rintro ⟨e, i, he, rfl⟩
    exact ⟨i, e, he, rfl⟩
  · rintro ⟨i, e, he, rfl⟩
    exact ⟨e, i, he, rfl⟩

theorem mem_placesOfMessages {messages : List MessageDescriptor} {index : Nat} {p : Place} :
    p ∈ placesOfMessages index messages ↔
      ∃ i m, messages[i]? = some m ∧ p ∈ placesOfMessage (index + i) m := by
  induction messages generalizing index with
  | nil => simp [placesOfMessages]
  | cons m rest ih =>
    rw [placesOfMessages, List.mem_append, ih]
    constructor
    · rintro (hp | ⟨i, m', hm', hp⟩)
      · exact ⟨0, m, rfl, hp⟩
      · exact ⟨i + 1, m', hm', by rwa [← Nat.add_assoc, Nat.add_right_comm]⟩
    · rintro ⟨i, m', hm', hp⟩
      cases i with
      | zero =>
        cases hm'
        exact .inl hp
      | succ i => exact .inr ⟨i, m', hm', by rwa [Nat.add_right_comm, Nat.add_assoc]⟩

theorem mem_places_of_declares {enums : List EnumDescriptor} {messages : List MessageDescriptor}
    {p : Place} (h : Declares enums messages p) : p ∈ places enums messages := by
  induction h with
  | enum he => exact List.mem_append_left _ (mem_placesOfEnums.2 ⟨_, _, he, rfl⟩)
  | @message _ _ i m hm =>
    refine List.mem_append_right _ (mem_placesOfMessages.2 ⟨i, m, hm, ?_⟩)
    rw [Nat.zero_add, placesOfMessage_eq]
    exact List.mem_cons_self
  | @nested _ _ i m p hm _ ih =>
    refine List.mem_append_right _ (mem_placesOfMessages.2 ⟨i, m, hm, ?_⟩)
    rw [Nat.zero_add, placesOfMessage_eq]
    exact List.mem_cons_of_mem _ (List.mem_map_of_mem ih)

theorem declares_of_mem_places {messages : List MessageDescriptor}
    (ih : ∀ m ∈ messages, ∀ p ∈ places m.enums m.nested, Declares m.enums m.nested p)
    (enums : List EnumDescriptor) {p : Place} (h : p ∈ places enums messages) :
    Declares enums messages p := by
  rcases List.mem_append.1 h with hp | hp
  · obtain ⟨i, e, he, rfl⟩ := mem_placesOfEnums.1 hp
    exact .enum he
  · obtain ⟨i, m, hm, hp⟩ := mem_placesOfMessages.1 hp
    rw [Nat.zero_add, placesOfMessage_eq, List.mem_cons, List.mem_map] at hp
    rcases hp with rfl | ⟨q, hq, rfl⟩
    · exact .message hm
    · exact .nested hm (ih m (List.mem_of_getElem? hm) q hq)

/-- The places are those where something is declared. -/
theorem mem_places {enums : List EnumDescriptor} {messages : List MessageDescriptor} {p : Place} :
    p ∈ places enums messages ↔ Declares enums messages p := by
  refine ⟨declares_of_mem_places (fun m _ => ?_) enums, mem_places_of_declares⟩
  refine MessageDescriptor.induct (fun m ih p hp => ?_) m
  exact declares_of_mem_places ih m.enums hp

theorem pairwise_zipIdx {α : Type} (xs : List α) : xs.zipIdx.Pairwise fun p q => p.2 < q.2 := by
  rw [← List.pairwise_map (f := Prod.snd) (R := fun i j => i < j), List.zipIdx_map_snd]
  exact List.pairwise_lt_range' 1

theorem pairwise_placesOfEnums (enums : List EnumDescriptor) :
    (placesOfEnums enums).Pairwise Place.Before := by
  rw [placesOfEnums, List.pairwise_map]
  refine (pairwise_zipIdx enums).imp ?_
  intro p q hlt
  exact .cons (.rel hlt)

theorem position_of_mem_placesOfMessage {index : Nat} {m : MessageDescriptor} {p : Place}
    (h : p ∈ placesOfMessage index m) : ∃ rest, p.position = 1 :: index :: rest := by
  rw [placesOfMessage_eq, List.mem_cons, List.mem_map] at h
  rcases h with rfl | ⟨q, -, rfl⟩
  · exact ⟨[], rfl⟩
  · exact ⟨q.position, rfl⟩

theorem position_of_mem_placesOfMessages {index : Nat} {messages : List MessageDescriptor}
    {p : Place} (h : p ∈ placesOfMessages index messages) :
    ∃ i rest, index ≤ i ∧ p.position = 1 :: i :: rest := by
  obtain ⟨i, m, -, hp⟩ := mem_placesOfMessages.1 h
  obtain ⟨rest, hrest⟩ := position_of_mem_placesOfMessage hp
  exact ⟨index + i, rest, Nat.le_add_right index i, hrest⟩

theorem position_ne_nil {enums : List EnumDescriptor} {messages : List MessageDescriptor}
    {p : Place} (h : p ∈ places enums messages) : ∃ i rest, p.position = i :: rest := by
  cases mem_places.1 h with
  | enum => exact ⟨_, _, rfl⟩
  | message => exact ⟨_, _, rfl⟩
  | nested => exact ⟨_, _, rfl⟩

theorem pairwise_placesOfMessages {messages : List MessageDescriptor}
    (ih : ∀ m ∈ messages, (places m.enums m.nested).Pairwise Place.Before) (index : Nat) :
    (placesOfMessages index messages).Pairwise Place.Before := by
  induction messages generalizing index with
  | nil => simp [placesOfMessages]
  | cons m rest ihrest =>
    rw [List.forall_mem_cons] at ih
    rw [placesOfMessages, List.pairwise_append]
    refine ⟨?_, ihrest ih.2 (index + 1), ?_⟩
    · rw [placesOfMessage_eq, List.pairwise_cons, List.pairwise_map]
      constructor
      · -- A message stands before what is nested in it: its position is the shorter one.
        intro q hq
        obtain ⟨p, hp, rfl⟩ := List.mem_map.1 hq
        obtain ⟨i, more, hposition⟩ := position_ne_nil hp
        simp only [Place.Before, Place.within, hposition]
        exact .cons (.cons .nil)
      · exact ih.1.imp fun h => h.within index m.name
    · intro p hp q hq
      obtain ⟨more, hposition⟩ := position_of_mem_placesOfMessage hp
      obtain ⟨i, more', hle, hposition'⟩ := position_of_mem_placesOfMessages hq
      rw [Place.Before, hposition, hposition']
      exact .cons (.rel hle)

theorem pairwise_places_of_nested {messages : List MessageDescriptor}
    (ih : ∀ m ∈ messages, (places m.enums m.nested).Pairwise Place.Before)
    (enums : List EnumDescriptor) : (places enums messages).Pairwise Place.Before := by
  rw [places, List.pairwise_append]
  refine ⟨pairwise_placesOfEnums enums, pairwise_placesOfMessages ih 0, ?_⟩
  intro p hp q hq
  obtain ⟨i, e, -, rfl⟩ := mem_placesOfEnums.1 hp
  obtain ⟨j, more, -, hposition⟩ := position_of_mem_placesOfMessages hq
  rw [Place.Before, hposition]
  exact .rel Nat.zero_lt_one

/-- Every place is listed once, in the order of declarations. -/
theorem pairwise_places (enums : List EnumDescriptor) (messages : List MessageDescriptor) :
    (places enums messages).Pairwise Place.Before := by
  refine pairwise_places_of_nested (fun m _ => ?_) enums
  refine MessageDescriptor.induct (fun m ih => ?_) m
  exact pairwise_places_of_nested ih m.enums

/-! ## The list of declarations -/

section

variable (file package : String)

theorem map_placesOfEnums (scope : String) (enums : List EnumDescriptor) :
    (placesOfEnums enums).map (Place.declaration file package scope) =
      Declaration.ofEnums file package scope enums := by
  have hfst : enums = enums.zipIdx.map Prod.fst := (List.zipIdx_map_fst 0 enums).symm
  conv_rhs => rw [hfst]
  rw [placesOfEnums, Declaration.ofEnums, List.map_map, List.map_map]
  rfl

theorem map_placesOfMessages {messages : List MessageDescriptor}
    (ih : ∀ m ∈ messages, ∀ scope index,
      (placesOfMessage index m).map (Place.declaration file package scope) =
        Declaration.ofMessage file package scope m) (scope : String) (index : Nat) :
    (placesOfMessages index messages).map (Place.declaration file package scope) =
      Declaration.ofMessages file package scope messages := by
  induction messages generalizing index with
  | nil => simp [placesOfMessages, Declaration.ofMessages]
  | cons m rest ihrest =>
    rw [List.forall_mem_cons] at ih
    rw [placesOfMessages, Declaration.ofMessages, List.map_append, ih.1, ihrest ih.2]

theorem map_placesOfMessage (m : MessageDescriptor) : ∀ scope index,
    (placesOfMessage index m).map (Place.declaration file package scope) =
      Declaration.ofMessage file package scope m := by
  refine MessageDescriptor.induct (fun m ih scope index => ?_) m
  have hwithin : ∀ p : Place, (p.within index m.name).declaration file package scope =
      p.declaration file package (scope ++ m.name ++ ".") := fun p =>
    p.declaration_within file package scope index m.name
  rw [placesOfMessage_eq, List.map_cons, List.map_map]
  simp only [Function.comp_def, hwithin, places, List.map_append]
  rw [map_placesOfEnums, map_placesOfMessages file package ih]
  cases m
  rw [Declaration.ofMessage]
  rfl

end

theorem map_places (file : FileDescriptor) :
    (places file.enums file.messages).map
        (Place.declaration file.fileName file.package file.namePath) =
      Declaration.ofFile file := by
  rw [places, List.map_append, map_placesOfEnums, map_placesOfMessages]
  · rfl
  · exact fun m _ => map_placesOfMessage file.fileName file.package m

theorem Text.dropStart?_append (start rest : List Char) :
    dropStart? start (start ++ rest) = some rest := by
  induction start with
  | nil => rfl
  | cons c start ih => simpa [dropStart?] using ih

theorem Text.afterStart?_append (start rest : String) :
    afterStart? start (start ++ rest) = some rest := by
  simp only [afterStart?, String.toList_append, dropStart?_append, Option.map_some,
    String.ofList_toList]

/-- The package takes nothing of the path of a declaration along. -/
theorem shortName_namePath (file : FileDescriptor) (path : String) :
    shortName (file.namePath ++ path) file.package = path := by
  by_cases hpackage : file.package = ""
  · simp [shortName, FileDescriptor.namePath, hpackage]
  · simp [shortName, FileDescriptor.namePath, hpackage, String.append_assoc,
      Text.afterStart?_append]

/-! ## Declarations of a schema -/

/-- A place in one of the files of a schema. -/
structure Site where
  /-- The number of the file. -/
  index : Nat
  file : FileDescriptor
  place : Place

namespace Site

/-- Something is declared there. -/
def DeclaredIn (files : List FileDescriptor) (s : Site) : Prop :=
  files[s.index]? = some s.file ∧ Declares s.file.enums s.file.messages s.place

/-- The dotted path of the declaration, the package in front. -/
def fqName (s : Site) : String := s.file.namePath ++ s.place.path

/-- The order of declarations, file by file. -/
def Before (s t : Site) : Prop :=
  List.Lex (· < ·) (s.index :: s.place.position) (t.index :: t.place.position)

/-- The reference to the declaration. -/
def toRef (s : Site) : TypeRef :=
  { fqName := s.fqName, file := s.file.fileName, package := s.file.package
    shortName := s.place.path, kind := s.place.kind, localName := s.place.path }

/-- The entry for the declaration. -/
def declaration (s : Site) : Declaration :=
  s.place.declaration s.file.fileName s.file.package s.file.namePath

theorem toRef_declaration (s : Site) : s.declaration.toRef = s.toRef := by
  simp only [Declaration.toRef, declaration, Place.declaration, shortName_namePath]
  rfl

theorem Before.asymm {s t : Site} (h : s.Before t) : ¬ t.Before s :=
  List.lex_asymm (fun hlt => Nat.lt_asymm hlt) h

/-- Lists in the order of declarations are determined by what they hold. -/
theorem eq_of_mem_iff {xs ys : List Site} (hxs : xs.Pairwise Before) (hys : ys.Pairwise Before)
    (h : ∀ s, s ∈ xs ↔ s ∈ ys) : xs = ys := by
  have : Std.Irrefl Before := ⟨fun s hs => hs.asymm hs⟩
  have hperm : xs.Perm ys := (List.perm_ext_iff_of_nodup hxs.nodup hys.nodup).2 h
  exact hperm.eq_of_pairwise (fun s t _ _ hst hts => absurd hts hst.asymm) hxs hys

end Site

/-- The sites of a schema. -/
def sites (files : List FileDescriptor) : List Site :=
  files.zipIdx.flatMap fun (file, i) => (places file.enums file.messages).map (⟨i, file, ·⟩)

theorem mem_sites {files : List FileDescriptor} {s : Site} :
    s ∈ sites files ↔ s.DeclaredIn files := by
  simp only [sites, List.mem_flatMap, Prod.exists, List.mem_zipIdx_iff_getElem?, List.mem_map,
    mem_places]
  constructor
  · rintro ⟨file, i, hfile, p, hp, rfl⟩
    exact ⟨hfile, hp⟩
  · rintro ⟨hfile, hp⟩
    exact ⟨s.file, s.index, hfile, s.place, hp, rfl⟩

theorem pairwise_sites (files : List FileDescriptor) : (sites files).Pairwise Site.Before := by
  rw [sites, List.pairwise_flatMap]
  constructor
  · rintro ⟨file, i⟩ -
    rw [List.pairwise_map]
    exact (pairwise_places file.enums file.messages).imp fun h => .cons h
  · refine (pairwise_zipIdx files).imp ?_
    intro p q hlt s hs t ht
    obtain ⟨_, -, rfl⟩ := List.mem_map.1 hs
    obtain ⟨_, -, rfl⟩ := List.mem_map.1 ht
    exact .rel hlt

theorem map_sites (files : List FileDescriptor) :
    (sites files).map Site.declaration = files.flatMap Declaration.ofFile := by
  have hfst : files = files.zipIdx.map Prod.fst := (List.zipIdx_map_fst 0 files).symm
  conv_rhs => rw [hfst]
  rw [sites, List.map_flatMap, List.flatMap_map]
  refine List.flatMap_congr ?_
  rintro ⟨file, i⟩ -
  rw [List.map_map, ← map_places]
  rfl

/-! ## Resolution -/

/-- The declarations that a full name can mean in a file: those of the name in the files that the
file sees. -/
def Meant (files : List FileDescriptor) (file : FileDescriptor) (fqName : String) : Set Site :=
  {s | s.DeclaredIn files ∧ s.fqName = fqName ∧ Sees files file s.file}

section

variable {files : List FileDescriptor} {file : FileDescriptor}

/-- What can be meant is found in the order of declarations. -/
theorem exists_found (h : DistinctFiles files) (hfile : file ∈ files) (name : String) :
    ∃ found : List Site, found.Pairwise Site.Before ∧
      (∀ s, s ∈ found ↔ s ∈ Meant files file (Text.withoutDot name)) ∧
      (Scope.ofDistinct files).resolve name file.fileName =
        Scope.answer (Text.withoutDot name) file.fileName (found.map Site.declaration) := by
  obtain ⟨i, hi⟩ := List.mem_iff_getElem?.1 hfile
  let chosen : Site → Bool :=
    (Scope.ofDistinct files).isCandidate ((Scope.ofDistinct files).visible i)
      (Text.withoutDot name) ∘ Site.declaration
  refine ⟨(sites files).filter chosen, (pairwise_sites files).filter _, ?_, ?_⟩
  · intro s
    rw [List.mem_filter, mem_sites]
    refine and_congr_right fun hs => ?_
    exact Scope.isCandidate_iff h hi (List.mem_of_getElem? hs.1) rfl _
  · rw [Scope.resolve_eq_answer h hi, ← List.filter_map, map_sites]
    rfl

/-- Any list of what can be meant, in the order of declarations, is the one that is found. -/
theorem resolve_of_found (h : DistinctFiles files) (hfile : file ∈ files) (name : String)
    (found : List Site) (hfound : found.Pairwise Site.Before)
    (hmem : ∀ s, s ∈ found ↔ s ∈ Meant files file (Text.withoutDot name)) :
    (Scope.ofDistinct files).resolve name file.fileName =
      Scope.answer (Text.withoutDot name) file.fileName (found.map Site.declaration) := by
  obtain ⟨found', hfound', hmem', hresolve⟩ := exists_found h hfile name
  rw [Site.eq_of_mem_iff hfound hfound' fun s => (hmem s).trans (hmem' s).symm, hresolve]

theorem resolve_eq_ok_iff (h : DistinctFiles files) (hfile : file ∈ files) (name : String)
    (ref : TypeRef) :
    (Scope.ofDistinct files).resolve name file.fileName = .ok ref ↔
      ∃ site, Meant files file (Text.withoutDot name) = {site} ∧ ref = site.toRef := by
  constructor
  · intro hok
    obtain ⟨found, -, hmem, hresolve⟩ := exists_found h hfile name
    rw [hresolve] at hok
    match found, hok, hmem with
    | [site], hok, hmem =>
      cases hok
      refine ⟨site, Set.ext fun s => ?_, site.toRef_declaration⟩
      rw [← hmem s, List.mem_singleton, Set.mem_singleton_iff]
  · rintro ⟨site, hmeant, rfl⟩
    rw [resolve_of_found h hfile name [site] (List.pairwise_singleton _ _),
      ← site.toRef_declaration]
    · rfl
    · intro s
      rw [hmeant, List.mem_singleton, Set.mem_singleton_iff]

theorem resolve_eq_unresolved_iff (h : DistinctFiles files) (hfile : file ∈ files)
    (name fqName origin : String) :
    (Scope.ofDistinct files).resolve name file.fileName = .error (.unresolved fqName origin) ↔
      Meant files file (Text.withoutDot name) = ∅ ∧ fqName = Text.withoutDot name ∧
        origin = file.fileName := by
  constructor
  · intro herror
    obtain ⟨found, -, hmem, hresolve⟩ := exists_found h hfile name
    rw [hresolve] at herror
    match found, herror, hmem with
    | [], herror, hmem =>
      cases herror
      refine ⟨Set.ext fun s => ?_, rfl, rfl⟩
      rw [← hmem s]
      simp
    | [_], herror, _ => cases herror
    | _ :: _ :: _, herror, _ => cases herror
  · rintro ⟨hmeant, rfl, rfl⟩
    rw [resolve_of_found h hfile name [] .nil]
    · rfl
    · intro s
      rw [hmeant]
      simp

theorem resolve_eq_ambiguous_iff (h : DistinctFiles files) (hfile : file ∈ files)
    (name fqName origin : String) (candidates : List String) :
    (Scope.ofDistinct files).resolve name file.fileName =
        .error (.ambiguous fqName origin candidates) ↔
      (∃ found : List Site, 2 ≤ found.length ∧ found.Pairwise Site.Before ∧
        {s | s ∈ found} = Meant files file (Text.withoutDot name) ∧
        candidates = found.map (·.file.fileName)) ∧
      fqName = Text.withoutDot name ∧ origin = file.fileName := by
  constructor
  · intro herror
    obtain ⟨found, hfound, hmem, hresolve⟩ := exists_found h hfile name
    rw [hresolve] at herror
    match found, herror, hfound, hmem with
    | s :: t :: rest, herror, hfound, hmem =>
      cases herror
      refine ⟨⟨s :: t :: rest, by simp, hfound, Set.ext hmem, ?_⟩, rfl, rfl⟩
      simp [Site.declaration, Place.declaration]
  · rintro ⟨⟨found, hlen, hfound, hmeant, rfl⟩, rfl, rfl⟩
    rw [resolve_of_found h hfile name found hfound fun s => by rw [← hmeant]; rfl]
    match found, hlen with
    | s :: t :: rest, _ => simp [Scope.answer, Site.declaration, Place.declaration]

end

/-- A name resolves to a declaration if that is the only one of the name that the file sees; it is
unresolved if there is none, and ambiguous if there are several, which are then listed by their
files in the order of declarations. -/
theorem resolve_exact {files : List FileDescriptor} (h : DistinctFiles files) :
    ∃ scope, Scope.ofFiles files = .ok scope ∧ ∀ file ∈ files, ∀ name,
      (∀ ref, scope.resolve name file.fileName = .ok ref ↔
        ∃ site, Meant files file (Text.withoutDot name) = {site} ∧ ref = site.toRef) ∧
      (∀ fqName origin, scope.resolve name file.fileName = .error (.unresolved fqName origin) ↔
        Meant files file (Text.withoutDot name) = ∅ ∧ fqName = Text.withoutDot name ∧
          origin = file.fileName) ∧
      (∀ fqName origin candidates,
        scope.resolve name file.fileName = .error (.ambiguous fqName origin candidates) ↔
          (∃ found : List Site, 2 ≤ found.length ∧ found.Pairwise Site.Before ∧
            {s | s ∈ found} = Meant files file (Text.withoutDot name) ∧
            candidates = found.map (·.file.fileName)) ∧
          fqName = Text.withoutDot name ∧ origin = file.fileName) := by
  refine ⟨Scope.ofDistinct files, Scope.ofFiles_eq h, fun file hfile name => ⟨?_, ?_, ?_⟩⟩
  · exact resolve_eq_ok_iff h hfile name
  · exact resolve_eq_unresolved_iff h hfile name
  · exact resolve_eq_ambiguous_iff h hfile name

/-- A file that depends on itself, directly and through another, and on one that is missing. -/
def ringStart : FileDescriptor :=
  { name := some "start.proto", package := "p"
    dependencies := ["next.proto", "gone.proto", "start.proto"]
    messages := [{ name := "Outer", nested := [{ name := "Inner" }] }] }

/-- The next file of the ring. -/
def ringNext : FileDescriptor :=
  { name := some "next.proto", package := "p", dependencies := ["start.proto"]
    messages := [{ name := "Dup" }] }

/-- A ring of files, and one outside it that declares a type of the same name. -/
def ring : List FileDescriptor :=
  [{ name := some "apart.proto", package := "p", messages := [{ name := "Dup" }] },
    ringStart, ringNext]

/-- Of the two declarations of the name the file sees the one in the ring. -/
theorem resolve_exact_ring : DistinctFiles ring ∧
    ∃ site, Meant ring ringStart "p.Dup" = {site} ∧ site.toRef =
      ⟨"p.Dup", "next.proto", "p", "Dup", .message, "Dup"⟩ := by
  have hring : DistinctFiles ring := ⟨by decide, by decide⟩
  obtain ⟨scope, hscope, hexact⟩ := resolve_exact hring
  rw [Scope.ofFiles_eq hring] at hscope
  cases hscope
  have hresolve : (Scope.ofDistinct ring).resolve ".p.Dup" ringStart.fileName =
      .ok ⟨"p.Dup", "next.proto", "p", "Dup", .message, "Dup"⟩ := by
    cbv
  obtain ⟨site, hmeant, href⟩ := ((hexact ringStart (by simp [ring]) ".p.Dup").1 _).1 hresolve
  exact ⟨hring, site, hmeant, href.symm⟩

end ProtoStub
