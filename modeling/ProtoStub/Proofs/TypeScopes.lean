import Mathlib
import ProtoStub.Proofs.DeclaredTypes
import ProtoStub.Script.Module

/-!
# Types in their namespaces

What is nested in a message stands in a namespace with its name, and a type that is named there is
looked up from the innermost namespace outward before the names of the module are considered
(`Reaches`). The name of a type is chosen for the module as a whole, without regard to where it is
printed: it reaches the declaration that is meant unless a namespace around it declares its first
part, in which case it never does (`reaches_iff`).

To say where a name is printed, the lines of the types are given again, each with the namespaces
around it (`typeSites`). To say what there is to be reached, declarations are reduced to their names
(`Outline`), for the resolved file as well as for the schema files that it imports from.
-/

namespace ProtoStub

/-! ## Outlines -/

/-- What a module shows of a declaration: its name, and what is shown in it. -/
inductive Outline where
  | node (name : String) (children : List Outline)

namespace Outline

/-- The name of a declaration. -/
def name : Outline → String
  | node name _ => name

/-- Following the names of a path ends at a declaration. -/
inductive Shows : List Outline → List String → Prop
  | here {scope children : List Outline} {name : String} (declared : node name children ∈ scope) :
      Shows scope [name]
  | into {scope children : List Outline} {name : String} {rest : List String}
      (declared : node name children ∈ scope) (shown : Shows children rest) :
      Shows scope (name :: rest)

theorem Shows.head_mem {scope : List Outline} {first : String} {rest : List String}
    (h : Shows scope (first :: rest)) : first ∈ scope.map Outline.name := by
  cases h with
  | here hdeclared => exact List.mem_map.2 ⟨_, hdeclared, rfl⟩
  | into hdeclared => exact List.mem_map.2 ⟨_, hdeclared, rfl⟩

end Outline

namespace Decl

mutual

/-- What is shown of a declaration, which is nothing for a map entry. -/
def outline : Decl → List Outline
  | enum e => [.node e.name []]
  | message m children => if m.isMapEntry then [] else [.node m.name (outlines children)]

/-- What is shown of several declarations. -/
def outlines : List Decl → List Outline
  | [] => []
  | d :: rest => outline d ++ outlines rest

end

theorem outlines_append (ds ds' : List Decl) :
    outlines (ds ++ ds') = outlines ds ++ outlines ds' := by
  induction ds with
  | nil => rfl
  | cons d ds ih => rw [List.cons_append, outlines, outlines, ih, List.append_assoc]

end Decl

/-- What is shown of enums. -/
def EnumDescriptor.outlines (enums : List EnumDescriptor) : List Outline :=
  enums.map fun e => .node e.name []

namespace MessageDescriptor

mutual

/-- What is shown of a message. -/
def outline : MessageDescriptor → List Outline
  | ⟨name, _, _, nested, enums, _, isMapEntry⟩ =>
    if isMapEntry then [] else [.node name (EnumDescriptor.outlines enums ++ outlines nested)]

/-- What is shown of several messages. -/
def outlines : List MessageDescriptor → List Outline
  | [] => []
  | m :: rest => outline m ++ outlines rest

end

theorem outline_eq (m : MessageDescriptor) : m.outline =
    if m.isMapEntry then []
    else [.node m.name (EnumDescriptor.outlines m.enums ++ outlines m.nested)] := by
  cases m
  rw [outline]

end MessageDescriptor

/-- What the module of a file shows. -/
def FileDescriptor.outlines (file : FileDescriptor) : List Outline :=
  EnumDescriptor.outlines file.enums ++ MessageDescriptor.outlines file.messages

namespace FileContext

variable {ctx : FileContext}

theorem outlines_enumDecls (namePath : String) (path : List Int32) (sort : Int32)
    (enums : List EnumDescriptor) :
    Decl.outlines (ctx.enumDecls namePath path sort enums) = EnumDescriptor.outlines enums := by
  have hzip : ∀ pairs : List (EnumDescriptor × Nat),
      Decl.outlines (pairs.map fun p => .enum (ctx.enumDecl namePath (child path sort p.2) p.1)) =
        EnumDescriptor.outlines (pairs.map Prod.fst) := by
    intro pairs
    induction pairs with
    | nil => rfl
    | cons p pairs ih =>
      rw [List.map_cons, Decl.outlines, ih]
      rfl
  have hall := hzip enums.zipIdx
  rw [List.zipIdx_map_fst] at hall
  exact hall

theorem outlines_of_nested {namePath : String} {ms : List MessageDescriptor} {ds : List Decl}
    (ih : ∀ m ∈ ms, ∀ path d, (ctx.message namePath path m).Gives d → d.outline = m.outline)
    (h : List.Forall₂ (fun m d => ∃ path, (ctx.message namePath path m).Gives d) ms ds) :
    Decl.outlines ds = MessageDescriptor.outlines ms := by
  induction h with
  | nil => rfl
  | @cons m d ms ds hd _ ihrest =>
    obtain ⟨path, hd⟩ := hd
    rw [List.forall_mem_cons] at ih
    rw [Decl.outlines, MessageDescriptor.outlines, ih.1 path d hd, ihrest ih.2]

/-- A resolved message shows what its descriptor does. -/
theorem outline_of_message (m : MessageDescriptor) : ∀ namePath path d,
    (ctx.message namePath path m).Gives d → d.outline = m.outline := by
  refine MessageDescriptor.induct (fun m ih namePath path d h => ?_) m
  obtain ⟨decl, enums, messages, hmade, rfl⟩ := exists_of_message h
  obtain ⟨enumPath, rfl⟩ := hmade.enumDecls
  have hnested := outlines_of_nested (fun inner hinner => ih inner hinner _) hmade.nested
  rw [Decl.outline, MessageDescriptor.outline_eq, hmade.isMapEntry, hmade.name,
    Decl.outlines_append, outlines_enumDecls, hnested]

end FileContext

theorem FileTree.outlines_types {scope : Scope} {language : Language} {file : FileDescriptor}
    {tree : FileTree} (h : ofFile scope language file = .ok tree) :
    Decl.outlines tree.types = file.outlines := by
  obtain ⟨ctx, messages, hmade, -⟩ := exists_of_ofFile h
  have hmessages := FileContext.outlines_of_nested
    (fun m _ => FileContext.outline_of_message m file.namePath) hmade.given
  rw [hmade.types, Decl.outlines_append, FileContext.outlines_enumDecls, hmessages]
  rfl

/-! ## Looking up names -/

namespace Script

/-- A namespace that a line stands in. -/
structure Namespace where
  name : String
  /-- What is nested in the message of that name. -/
  children : List Decl

namespace Namespace

/-- What a namespace declares. -/
def scope (ns : Namespace) : List Outline := Decl.outlines ns.children

/-- The names that a namespace declares. -/
def names (ns : Namespace) : List String := ns.scope.map Outline.name

end Namespace

/-- The path to the innermost of several namespaces, which are given from the inside out. -/
def namespacePath (around : List Namespace) : List String := (around.map (·.name)).reverse

/-- Looking up a path of names in a module, inside the namespaces `around`, ends at the declaration
of a file with a path. The first name decides where: in the innermost namespace that declares it,
else in the module, else in a module that it was imported from. -/
inductive Reaches (files : List FileDescriptor) (tree : FileTree) :
    List Namespace → List String → String → List String → Prop
  | inside {ns : Namespace} {around : List Namespace} {first : String} {rest : List String}
      (shown : Outline.Shows ns.scope (first :: rest)) :
      Reaches files tree (ns :: around) (first :: rest) tree.name
        (namespacePath (ns :: around) ++ first :: rest)
  | outward {ns : Namespace} {around : List Namespace} {first file : String}
      {rest path : List String} (passed : first ∉ ns.names)
      (reaches : Reaches files tree around (first :: rest) file path) :
      Reaches files tree (ns :: around) (first :: rest) file path
  | own {first : String} {rest : List String}
      (shown : Outline.Shows (Decl.outlines tree.types) (first :: rest)) :
      Reaches files tree [] (first :: rest) tree.name (first :: rest)
  | imported {first identifier : String} {rest : List String} {file : FileDescriptor}
      (passed : first ∉ (Decl.outlines tree.types).map Outline.name) (exporter : file ∈ files)
      (bound : tree.imports.find? (ModulePath.relative (ModulePath.generated tree.name .typeScript)
        (ModulePath.generated file.fileName .typeScript) .typeScript) identifier = some first)
      (shown : Outline.Shows file.outlines (identifier :: rest)) :
      Reaches files tree [] (first :: rest) file.fileName (identifier :: rest)

namespace Reaches

variable {files : List FileDescriptor} {tree : FileTree} {around : List Namespace}
  {first file : String} {rest path : List String}

/-- Namespaces that do not declare the first name make no difference. -/
theorem iff_of_passed (h : ∀ ns ∈ around, first ∉ ns.names) :
    Reaches files tree around (first :: rest) file path ↔
      Reaches files tree [] (first :: rest) file path := by
  induction around with
  | nil => rfl
  | cons ns around ih =>
    rw [List.forall_mem_cons] at h
    rw [← ih h.2]
    constructor
    · intro hreaches
      cases hreaches with
      | inside hshown => exact absurd hshown.head_mem h.1
      | outward _ hreaches => exact hreaches
    · exact .outward h.1

/-- A name that a namespace declares does not leave the namespaces. -/
theorem of_captured (h : ∃ ns ∈ around, first ∈ ns.names)
    (hreaches : Reaches files tree around (first :: rest) file path) :
    file = tree.name ∧ (first :: rest).length < path.length := by
  induction around with
  | nil => simp at h
  | cons ns around ih =>
    cases hreaches with
    | inside =>
      refine ⟨rfl, ?_⟩
      simp only [namespacePath, List.length_append, List.length_reverse, List.length_map,
        List.length_cons]
      omega
    | outward hpassed hreaches =>
      refine ih ?_ hreaches
      obtain ⟨ns', hns', hfirst⟩ := h
      rcases List.mem_cons.1 hns' with rfl | hns'
      · exact absurd hfirst hpassed
      · exact ⟨ns', hns', hfirst⟩

/-- There is one declaration at most that a path leads to. -/
theorem unique (hsound : tree.imports.Sound)
    (hpaths : ∀ file ∈ files, ModulePath.IsSchemaPath file.fileName)
    (h : Reaches files tree around (first :: rest) file path) {file' : String}
    {path' : List String} (h' : Reaches files tree around (first :: rest) file' path') :
    file = file' ∧ path = path' := by
  induction around with
  | nil =>
    cases h with
    | own hshown =>
      cases h' with
      | own => exact ⟨rfl, rfl⟩
      | imported hpassed => exact absurd hshown.head_mem hpassed
    | imported hpassed hexporter hbound =>
      cases h' with
      | own hshown => exact absurd hshown.head_mem hpassed
      | imported _ hexporter' hbound' =>
        obtain ⟨hrelative, rfl⟩ := hsound.injective hbound hbound'
        have hfile := ModulePath.relative_injective (hpaths _ hexporter) (hpaths _ hexporter')
          hrelative
        exact ⟨hfile, rfl⟩
  | cons ns around ih =>
    cases h with
    | inside hshown =>
      cases h' with
      | inside => exact ⟨rfl, rfl⟩
      | outward hpassed => exact absurd hshown.head_mem hpassed
    | outward hpassed hreaches =>
      cases h' with
      | inside hshown => exact absurd hshown.head_mem hpassed
      | outward _ hreaches' => exact ih hreaches hreaches'

end Reaches

/-! ## The lines of the types in their namespaces -/

mutual

/-- The lines of the types of a declaration, each with the namespaces that it stands in. -/
def declarationSites (outermost : Bool) (around : List Namespace) :
    Decl → List (List Namespace × Line)
  | .enum e => (enumType e).map (around, ·)
  | .message m children =>
    if m.isMapEntry then []
    else
      (interface m).map (around, ·) ++
        if (Decl.emitted children).isEmpty then []
        else
          (around, .opening (code (namespaceHead m.name outermost))) ::
            nestedSites false (⟨m.name, children⟩ :: around) children ++
            [(around, .closing "\x7d"), (around, .blank)]

/-- The lines of the types of several declarations, each with the namespaces that it stands in. -/
def nestedSites (outermost : Bool) (around : List Namespace) :
    List Decl → List (List Namespace × Line)
  | [] => []
  | d :: rest => declarationSites outermost around d ++ nestedSites outermost around rest

end

/-- The lines of the types of a module, each with the namespaces that it stands in. -/
def typeSites (tree : FileTree) : List (List Namespace × Line) := nestedSites true [] tree.types

mutual

theorem map_declarationSites (outermost : Bool) (around : List Namespace) : ∀ d : Decl,
    (declarationSites outermost around d).map Prod.snd = declarationTypes outermost d
  | .enum e => by
    simp only [declarationSites, declarationTypes, List.map_map, Function.comp_def, List.map_id']
  | .message m children => by
    have hnested := map_nestedSites false (⟨m.name, children⟩ :: around) children
    rw [declarationSites, declarationTypes]
    split
    · rfl
    · rw [List.map_append, List.map_map]
      simp only [Function.comp_def, List.map_id']
      split
      · rfl
      · simp [block, hnested]

theorem map_nestedSites (outermost : Bool) (around : List Namespace) : ∀ ds : List Decl,
    (nestedSites outermost around ds).map Prod.snd = nestedTypes outermost ds
  | [] => by simp [nestedSites, nestedTypes]
  | d :: rest => by
    rw [nestedSites, nestedTypes, List.map_append, map_declarationSites outermost around d,
      map_nestedSites outermost around rest]

end

/-! ## Types that the lines name -/

/-- The type that a fragment names. -/
def Fragment.target? : Fragment → Option TypeRef
  | reference target => some target
  | plain _ | runtime _ => none

/-- The types that code names. -/
def Code.references (c : Code) : List TypeRef := c.filterMap Fragment.target?

/-- The types that a line names. -/
def Line.references : Line → List TypeRef
  | blank => []
  | line c | opening c | middle c | closing c => Code.references c

theorem references_code (parts : List Code) :
    Code.references (code parts) = parts.flatMap Code.references := by
  rw [Code.references, code, List.filterMap_flatten, List.flatMap]
  rfl

theorem references_plain (s : String) : Code.references [.plain s] = [] := rfl

theorem references_documentation (texts : List String) :
    ∀ l ∈ documentation texts, l.references = [] := by
  intro l hl
  simp only [documentation, List.cons_append, List.mem_cons, List.mem_append, List.mem_map,
    List.not_mem_nil, or_false] at hl
  rcases hl with rfl | ⟨text, -, rfl⟩ | rfl
  · rfl
  · rw [documentationLine]
    split <;> rfl
  · rfl

theorem references_comment (c : Option String) : ∀ l ∈ comment c, l.references = [] := by
  cases c with
  | none => exact fun l hl => absurd hl List.not_mem_nil
  | some s => exact references_documentation _

theorem references_elementType (field : Field) :
    Code.references (elementType field) ⊆ field.references := by
  induction field with
  | plain info =>
    rw [elementType, Field.references]
    cases info.kind <;> exact List.Subset.refl _
  | map info key value _ ihvalue =>
    rw [elementType, references_code, Field.references]
    simp only [List.flatMap_cons, List.flatMap_nil, references_plain, List.nil_append,
      List.append_nil]
    exact List.subset_append_of_subset_right _ ihvalue

theorem references_fieldType (field : Field) :
    Code.references (fieldType field) ⊆ field.references := by
  rw [fieldType]
  split
  · rw [references_code]
    simpa [references_plain] using references_elementType field
  · exact references_elementType field

theorem references_interfaceMember {field : Field} {l : Line} (h : l ∈ interfaceMember field) :
    l.references ⊆ field.references := by
  rw [interfaceMember, List.mem_append, List.mem_singleton] at h
  rcases h with h | rfl
  · rw [references_comment _ l h]
    exact List.nil_subset _
  · split
    all_goals
      simp only [line, Line.references, references_code, List.flatMap_cons, List.flatMap_nil,
        references_plain, List.nil_append, List.append_nil]
      exact references_fieldType field

theorem references_interface {m : MessageDecl} {l : Line} (h : l ∈ interface m) :
    l.references ⊆ m.fields.flatMap Field.references := by
  simp only [interface, List.mem_append, List.mem_singleton] at h
  rcases h with (h | h) | rfl
  · rw [references_comment _ l h]
    exact List.nil_subset _
  · split at h
    · rw [List.mem_singleton] at h
      subst h
      exact List.nil_subset _
    · simp only [block, List.cons_append, List.mem_cons, List.mem_append, List.mem_flatMap,
        List.not_mem_nil, or_false] at h
      rcases h with rfl | ⟨field, hfield, h⟩ | rfl
      · exact List.nil_subset _
      · exact fun ref href => List.mem_flatMap.2 ⟨field, hfield, references_interfaceMember h href⟩
      · exact List.nil_subset _
  · exact List.nil_subset _

theorem references_enumType {e : EnumDecl} {l : Line} (h : l ∈ enumType e) : l.references = [] := by
  simp only [enumType, List.mem_append, List.mem_cons, List.not_mem_nil, or_false] at h
  rcases h with h | rfl | rfl
  · exact references_comment _ l h
  · rfl
  · rfl

mutual

theorem references_declarationSites (outermost : Bool) (around : List Namespace) : ∀ d : Decl,
    ∀ p ∈ declarationSites outermost around d, ∀ ref ∈ p.2.references,
      ∃ d' ∈ d.walk, ref ∈ d'.references
  | .enum e => by
    intro p hp ref href
    rw [declarationSites] at hp
    obtain ⟨l, hl, rfl⟩ := List.mem_map.1 hp
    rw [references_enumType hl] at href
    cases href
  | .message m children => by
    have hnested := references_nestedSites false (⟨m.name, children⟩ :: around) children
    intro p hp ref href
    rw [Decl.walk]
    rw [declarationSites] at hp
    split at hp
    · cases hp
    · rcases List.mem_append.1 hp with hp | hp
      · obtain ⟨l, hl, rfl⟩ := List.mem_map.1 hp
        exact ⟨_, List.mem_cons_self, references_interface hl href⟩
      · split at hp
        · cases hp
        · simp only [List.cons_append, List.mem_cons, List.mem_append, List.not_mem_nil,
            or_false] at hp
          rcases hp with rfl | hp | rfl | rfl
          · cases outermost <;> cases href
          · obtain ⟨d', hd', hmem⟩ := hnested p hp ref href
            exact ⟨d', List.mem_cons_of_mem _ hd', hmem⟩
          · cases href
          · cases href

theorem references_nestedSites (outermost : Bool) (around : List Namespace) : ∀ ds : List Decl,
    ∀ p ∈ nestedSites outermost around ds, ∀ ref ∈ p.2.references,
      ∃ d ∈ Decl.walkAll ds, ref ∈ d.references
  | [] => by
    intro p hp
    rw [nestedSites] at hp
    cases hp
  | d :: rest => by
    intro p hp ref href
    rw [nestedSites] at hp
    rw [Decl.walkAll]
    rcases List.mem_append.1 hp with hp | hp
    · obtain ⟨d', hd', hmem⟩ := references_declarationSites outermost around d p hp ref href
      exact ⟨d', List.mem_append_left _ hd', hmem⟩
    · obtain ⟨d', hd', hmem⟩ := references_nestedSites outermost around rest p hp ref href
      exact ⟨d', List.mem_append_right _ hd', hmem⟩

end

/-- The types of a module name only what its file refers to. -/
theorem references_typeSites {tree : FileTree} {p : List Namespace × Line}
    (hp : p ∈ typeSites tree) : p.2.references ⊆ tree.references := by
  intro ref href
  obtain ⟨d, hd, hmem⟩ := references_nestedSites true [] tree.types p hp ref href
  exact List.mem_append_left _ (List.mem_flatMap.2 ⟨d, hd, hmem⟩)

/-! ## Names and what they mean -/

end Script

namespace Place

/-- The names on the path to a declaration. -/
def names (p : Place) : List String := p.outer ++ [p.name]

theorem exists_names_eq_cons (p : Place) : ∃ first rest, p.names = first :: rest := by
  obtain ⟨position, outer, name, kind⟩ := p
  cases outer with
  | nil => exact ⟨name, [], rfl⟩
  | cons first outer => exact ⟨first, outer ++ [name], rfl⟩

end Place

/-- All names that a file declares are without dots. -/
def FileDescriptor.NamesDotFree (file : FileDescriptor) : Prop :=
  ∀ p ∈ places file.enums file.messages, ∀ name ∈ p.names, '.' ∉ name.toList

/-- What follows the first name of a path does not hang on that name. -/
theorem exists_intercalate_eq_dotted (rest : List String) :
    ∃ tail, ∀ name, ".".intercalate (name :: rest) = dotted name tail := by
  cases rest with
  | nil => exact ⟨none, fun _ => rfl⟩
  | cons next rest =>
    exact ⟨some (".".intercalate (next :: rest)), fun _ =>
      String.intercalate_cons_of_ne_nil (List.cons_ne_nil _ _)⟩

/-- A reference spells the path to its declaration, with the local name in place of the first. -/
theorem Site.localName_bindRoot {site : Site} {first : String} {rest : List String}
    (hnames : site.place.names = first :: rest) (hdots : '.' ∉ first.toList) (root : String) :
    site.toRef.root = first ∧
      (site.toRef.bindRoot root).localName = ".".intercalate (root :: rest) := by
  obtain ⟨tail, htail⟩ := exists_intercalate_eq_dotted rest
  have hshort : site.toRef.shortName = dotted first tail := by
    rw [← htail, ← hnames]
    rfl
  obtain ⟨hroot, hcases⟩ := site.toRef.shortName_cases
  obtain ⟨hfirst, hrest⟩ := (dotted_inj hroot hdots).1 (hcases.symm.trans hshort)
  exact ⟨hfirst, by rw [TypeRef.localName_bindRoot, hrest, htail]⟩

theorem MessageDescriptor.names_outlines_subset (ms : List MessageDescriptor) :
    (outlines ms).map Outline.name ⊆ ms.map (·.name) := by
  induction ms with
  | nil => exact List.Subset.refl _
  | cons m ms ih =>
    rw [outlines, List.map_append, List.map_cons, outline_eq]
    split
    · exact List.subset_cons_of_subset _ ih
    · exact List.cons_subset_cons _ ih

/-- What the module of a file shows has names that the module declares. -/
theorem FileDescriptor.names_outlines_subset (file : FileDescriptor) :
    file.outlines.map Outline.name ⊆ file.topLevelNames := by
  have henums : (EnumDescriptor.outlines file.enums).map Outline.name =
      file.enums.map (·.name) := by
    rw [EnumDescriptor.outlines, List.map_map]
    rfl
  rw [outlines, List.map_append, henums, topLevelNames]
  refine List.subset_append_of_subset_left _ (List.append_subset.2 ⟨?_, ?_⟩)
  · exact List.subset_append_left _ _
  · exact List.subset_append_of_subset_right _
      (MessageDescriptor.names_outlines_subset file.messages)

namespace Script

theorem reaches_module_iff {files : List FileDescriptor} {tree : FileTree}
    {first file : String} {rest path : List String} :
    Reaches files tree [] (first :: rest) file path ↔
      (file = tree.name ∧ path = first :: rest ∧
        Outline.Shows (Decl.outlines tree.types) (first :: rest)) ∨
      ∃ exporter ∈ files, ∃ identifier, file = exporter.fileName ∧ path = identifier :: rest ∧
        first ∉ (Decl.outlines tree.types).map Outline.name ∧
        tree.imports.find? (ModulePath.relative (ModulePath.generated tree.name .typeScript)
          (ModulePath.generated exporter.fileName .typeScript) .typeScript) identifier =
            some first ∧
        Outline.Shows exporter.outlines (identifier :: rest) := by
  constructor
  · intro h
    cases h with
    | own hshown => exact .inl ⟨rfl, rfl, hshown⟩
    | imported hpassed hexporter hbound hshown =>
      exact .inr ⟨_, hexporter, _, rfl, rfl, hpassed, hbound, hshown⟩
  · rintro (⟨rfl, rfl, hshown⟩ | ⟨_, hexporter, _, rfl, rfl, hpassed, hbound, hshown⟩)
    · exact .own hshown
    · exact .imported hpassed hexporter hbound hshown

section

variable {files : List FileDescriptor} {file : FileDescriptor} {tree : FileTree} {site : Site}
  {root first : String} {rest : List String}

/-- Outside of all namespaces a reference reaches its declaration if the declaration is shown. -/
theorem reaches_nil_iff (h : DistinctFiles files) (hfile : file ∈ files)
    (hok : FileTree.ofFile (Scope.ofDistinct files) .typeScript file = .ok tree)
    (hdeclared : site.DeclaredIn files) (hbinds : tree.imports.Binds site.toRef root)
    (hnames : site.place.names = first :: rest) (hdots : '.' ∉ first.toList) :
    Reaches files tree [] (root :: rest) site.file.fileName (first :: rest) ↔
      Outline.Shows site.file.outlines (first :: rest) := by
  obtain ⟨hname, hsound, hextends, -⟩ := FileTree.known_of_ofFile h hfile hok
  have hmem : site.file ∈ files := List.mem_of_getElem? hdeclared.1
  have hown : tree.imports.file = tree.name := by
    rw [hextends.file, hname, FileTree.emptyImports, ImportTable.foldl_reserve]
  have hlanguage : tree.imports.language = .typeScript := by
    rw [hextends.language, FileTree.emptyImports, ImportTable.foldl_reserve]
  have hfirst : site.toRef.root = first := (site.localName_bindRoot hnames hdots root).1
  have htop : Decl.outlines tree.types = file.outlines := FileTree.outlines_types hok
  rw [reaches_module_iff, htop]
  cases hbinds with
  | own hsame =>
    have hsite : site.file = file :=
      h.eq_of_fileName hmem hfile ((hsame.trans hown).trans hname)
    rw [hfirst, hsite]
    constructor
    · rintro (⟨-, -, hshown⟩ | ⟨g, hg, identifier, hgfile, hpath, hpassed, -, hshown⟩)
      · exact hshown
      · obtain rfl : file = g := h.eq_of_fileName hfile hg hgfile
        rw [hpath]
        exact hshown
    · exact fun hshown => .inl ⟨hname.symm, rfl, hshown⟩
  | imported hforeign hfound =>
    constructor
    · rintro (⟨hgfile, -⟩ | ⟨g, hg, identifier, hgfile, hpath, -, -, hshown⟩)
      · exact absurd (hgfile.trans hown.symm) hforeign
      · rw [h.eq_of_fileName hmem hg hgfile, hpath]
        exact hshown
    · intro hshown
      refine .inr ⟨site.file, hmem, first, rfl, rfl, ?_, ?_, hshown⟩
      · intro hdeclares
        refine hsound.notReserved hfound ?_
        rw [hextends.reserved]
        exact FileTree.mem_reserved_emptyImports.2 (file.names_outlines_subset hdeclares)
      · rw [ImportTable.pathTo, hown, hlanguage, hfirst] at hfound
        exact hfound

/-- Inside of namespaces it does so unless one of them declares the first part of its name. -/
theorem reaches_site_iff (h : DistinctFiles files) (hfile : file ∈ files)
    (hok : FileTree.ofFile (Scope.ofDistinct files) .typeScript file = .ok tree)
    (hdeclared : site.DeclaredIn files) (hbinds : tree.imports.Binds site.toRef root)
    (hnames : site.place.names = first :: rest) (hdots : '.' ∉ first.toList)
    (around : List Namespace) :
    Reaches files tree around (root :: rest) site.file.fileName (first :: rest) ↔
      (∀ ns ∈ around, root ∉ ns.names) ∧ Outline.Shows site.file.outlines (first :: rest) := by
  by_cases hpassed : ∀ ns ∈ around, root ∉ ns.names
  · rw [Reaches.iff_of_passed hpassed, reaches_nil_iff h hfile hok hdeclared hbinds hnames hdots]
    exact (and_iff_right hpassed).symm
  · refine iff_of_false (fun hreaches => ?_) fun hboth => hpassed hboth.1
    have hcaptured : ∃ ns ∈ around, root ∈ ns.names := by
      simpa only [not_forall, not_not, exists_prop] using hpassed
    -- what a namespace captures has a longer path than the name
    have hlength := (hreaches.of_captured hcaptured).2
    exact absurd hlength (by simp)

end

/-- The types that the lines of a module name are looked up where they are printed. Such a name
reaches the declaration that it refers to, and no other, unless a namespace around the line declares
the first part of the name; then it does not reach it. Declarations that are not shown, which are
map entries and what is nested in them, cannot be reached. -/
theorem reaches_iff {files : List FileDescriptor} {targets : List String} {trees : List FileTree}
    {tree : FileTree} (h : DistinctFiles files)
    (hpaths : ∀ file ∈ files, ModulePath.IsSchemaPath file.fileName)
    (hdots : ∀ file ∈ files, file.NamesDotFree)
    (hbuild : FileTree.build files targets .typeScript = .ok trees) (htree : tree ∈ trees) :
    (typeSites tree).map Prod.snd = nestedTypes true tree.types ∧
    ∀ p ∈ typeSites tree, ∀ ref ∈ p.2.references, ∃ site : Site, site.DeclaredIn files ∧
      ref.file = site.file.fileName ∧ ref.fqName = site.fqName ∧
      (Reaches files tree p.1 (Text.pieces '.' ref.localName) ref.file site.place.names ↔
        (∀ first ∈ (Text.pieces '.' ref.localName).head?, ∀ ns ∈ p.1, first ∉ ns.names) ∧
          Outline.Shows site.file.outlines site.place.names) ∧
      ∀ file path file' path',
        Reaches files tree p.1 (Text.pieces '.' ref.localName) file path →
        Reaches files tree p.1 (Text.pieces '.' ref.localName) file' path' →
          file = file' ∧ path = path' := by
  obtain ⟨file, hfile, hok⟩ := FileTree.exists_of_build h hbuild tree htree
  obtain ⟨-, hsound, -, hknown⟩ := FileTree.known_of_ofFile h hfile hok
  refine ⟨map_nestedSites true [] tree.types, ?_⟩
  intro p hp ref href
  cases hknown ref (references_typeSites hp href) with | @intro site root hdeclared hbinds => ?_
  obtain ⟨first, rest, hnames⟩ := site.place.exists_names_eq_cons
  have hsite : ∀ name ∈ site.place.names, '.' ∉ name.toList :=
    hdots _ (List.mem_of_getElem? hdeclared.1) _ (mem_places.2 hdeclared.2)
  rw [hnames, List.forall_mem_cons] at hsite
  have hpieces : Text.pieces '.' (site.toRef.bindRoot root).localName = root :: rest := by
    rw [(site.localName_bindRoot hnames hsite.1 root).2]
    refine Text.pieces_intercalate_of_toList rfl (List.cons_ne_nil _ _) ?_
    exact List.forall_mem_cons.2 ⟨hsound.dotFree_of_binds hbinds, hsite.2⟩
  refine ⟨site, hdeclared, rfl, rfl, ?_, ?_⟩
  · rw [hpieces, hnames]
    simp only [List.head?_cons, Option.mem_some_iff, forall_eq']
    exact reaches_site_iff h hfile hok hdeclared hbinds hnames hsite.1 p.1
  · intro f path f' path'
    rw [hpieces]
    exact fun hreaches hreaches' => hreaches.unique hsound hpaths hreaches'

/-- Sizes, and hats that have sizes of their own; the brim of a hat refers to both. -/
def shop : List FileDescriptor :=
  [{ name := some "size.proto", package := "metric", dialect := "proto3"
     messages := [{ name := "Size" }] },
    { name := some "hat.proto", package := "shop", dialect := "proto3"
      dependencies := ["size.proto"]
      messages := [
        { name := "Hat"
          nested := [
            { name := "Size" },
            { name := "Brim"
              fields := [
                { name := "size", number := 1, type := .message, typeName := ".metric.Size" },
                { name := "own", number := 2, type := .message,
                  typeName := ".shop.Hat.Size" }] }] }] }]

/-- The types that the lines of a module name, with the names of the namespaces around them. -/
def namedTypes (tree : FileTree) : List (List (List String) × TypeRef) :=
  (typeSites tree).flatMap fun p => p.2.references.map fun ref => (p.1.map Namespace.names, ref)

theorem exists_tree_shop : ∃ tree, FileTree.build shop ["hat.proto"] .typeScript = .ok [tree] ∧
    namedTypes tree =
      [([["Size", "Brim"]], ⟨"metric.Size", "size.proto", "metric", "Size", .message, "Size"⟩),
        ([["Size", "Brim"]],
          ⟨"shop.Hat.Size", "hat.proto", "shop", "Hat.Size", .message, "Hat.Size"⟩)] := by
  apply FileTree.exists_of_map_build
  cbv

theorem exists_of_mem_namedTypes {tree : FileTree} {names : List (List String)} {ref : TypeRef}
    (h : (names, ref) ∈ namedTypes tree) :
    ∃ p ∈ typeSites tree, ref ∈ p.2.references ∧ p.1.map Namespace.names = names := by
  obtain ⟨p, hp, h⟩ := List.mem_flatMap.1 h
  obtain ⟨ref', href, heq⟩ := List.mem_map.1 h
  cases heq
  exact ⟨p, hp, href, rfl⟩

/-- The hat's own size is found from its brim. -/
theorem reaches_shop :
    DistinctFiles shop ∧ (∀ file ∈ shop, ModulePath.IsSchemaPath file.fileName) ∧
      (∀ file ∈ shop, file.NamesDotFree) ∧
      ∃ tree, FileTree.build shop ["hat.proto"] .typeScript = .ok [tree] ∧
        ∃ p ∈ typeSites tree, ∃ ref ∈ p.2.references, ref.localName = "Hat.Size" ∧
          p.1.map Namespace.names = [["Size", "Brim"]] ∧
          Reaches shop tree p.1 ["Hat", "Size"] "hat.proto" ["Hat", "Size"] := by
  have h : DistinctFiles shop := ⟨by decide, by decide⟩
  have hpaths : ∀ file ∈ shop, ModulePath.IsSchemaPath file.fileName := by
    simp only [shop, List.forall_mem_cons, List.not_mem_nil, false_imp_iff, implies_true, and_true]
    exact ⟨⟨[], "size", by decide +kernel, by simp⟩, ⟨[], "hat", by decide +kernel, by simp⟩⟩
  have hdots : ∀ file ∈ shop, file.NamesDotFree := by
    unfold FileDescriptor.NamesDotFree
    decide +kernel
  have hshown : ∀ file ∈ shop, file.fileName = "hat.proto" →
      Outline.Shows file.outlines ["Hat", "Size"] := by
    simp only [shop, List.forall_mem_cons, List.not_mem_nil, false_imp_iff, implies_true, and_true]
    exact ⟨fun hsize => absurd hsize (by decide),
      fun _ => .into List.mem_cons_self (.here List.mem_cons_self)⟩
  have hsites : (sites shop).map (fun s => (s.fqName, s.place.names)) =
      [("metric.Size", ["Size"]), ("shop.Hat", ["Hat"]), ("shop.Hat.Size", ["Hat", "Size"]),
        ("shop.Hat.Brim", ["Hat", "Brim"])] := by
    cbv
  have hpieces : Text.pieces '.' "Hat.Size" = ["Hat", "Size"] := by decide +kernel
  obtain ⟨tree, hbuild, hnamed⟩ := exists_tree_shop
  obtain ⟨p, hp, href, hnames⟩ := exists_of_mem_namedTypes
    (hnamed.symm ▸ List.mem_cons_of_mem _ List.mem_cons_self)
  refine ⟨h, hpaths, hdots, tree, hbuild, p, hp, _, href, rfl, hnames, ?_⟩
  obtain ⟨site, hdeclared, hfile, hfqName, hiff, -⟩ :=
    (reaches_iff h hpaths hdots hbuild List.mem_cons_self).2 p hp _ href
  have hsite : site.place.names = ["Hat", "Size"] := by
    have hmem := List.mem_map_of_mem (f := fun s : Site => (s.fqName, s.place.names))
      (mem_sites.2 hdeclared)
    rw [hsites, ← hfqName] at hmem
    simpa using hmem
  rw [hsite] at hiff
  simp only [hpieces] at hiff
  refine hiff.2 ⟨?_, hshown _ (List.mem_of_getElem? hdeclared.1) hfile.symm⟩
  rintro _ ⟨⟩ ns hns
  have hdeclares : ns.names = ["Size", "Brim"] := by
    have hmem := List.mem_map_of_mem (f := Namespace.names) hns
    rw [hnames] at hmem
    exact List.mem_singleton.1 hmem
  rw [hdeclares]
  decide

/-- The other size is not: the namespace of the hat has a size of its own. -/
theorem not_reaches_shop :
    ∃ tree, FileTree.build shop ["hat.proto"] .typeScript = .ok [tree] ∧
      ∃ p ∈ typeSites tree, ∃ ref ∈ p.2.references, ref.localName = "Size" ∧
        ref.file = "size.proto" ∧ ref.fqName = "metric.Size" ∧
        ¬ Reaches shop tree p.1 ["Size"] "size.proto" ["Size"] := by
  obtain ⟨tree, hbuild, hnamed⟩ := exists_tree_shop
  obtain ⟨p, hp, href, hnames⟩ := exists_of_mem_namedTypes (hnamed.symm ▸ List.mem_cons_self)
  refine ⟨tree, hbuild, p, hp, _, href, rfl, rfl, rfl, fun hreaches => ?_⟩
  have hcaptured : ∃ ns ∈ p.1, "Size" ∈ ns.names := by
    have hmem : ["Size", "Brim"] ∈ p.1.map Namespace.names := hnames ▸ List.mem_cons_self
    obtain ⟨ns, hns, hdeclares⟩ := List.mem_map.1 hmem
    exact ⟨ns, hns, hdeclares ▸ List.mem_cons_self⟩
  exact Nat.lt_irrefl _ (hreaches.of_captured hcaptured).2

end Script

end ProtoStub
