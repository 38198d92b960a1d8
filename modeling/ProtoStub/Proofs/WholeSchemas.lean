import Mathlib
import ProtoStub.Proofs.WritingFaults

/-!
# Codecs of whole schemas

If all files of a schema are resolved, the codec that is made of them knows every type that the
schema declares, and so every type that its fields refer to (`Codec.closed_of_build`). Then it is
always the data that is at fault: `onlyDataFaults_of_build` gathers this for everything that a
codec does.

The codec takes one leading dot off the names that it is asked for. A type whose full name starts
with a dot is therefore resolved but not found, and no full name may start with one.
-/

namespace ProtoStub

/-! ## What a schema declares -/

/-- Fields of a message type name messages, and fields of an enum type name enums. -/
def NamesMatch (files : List FileDescriptor) : Prop :=
  ∀ file ∈ files, ∀ top ∈ file.messages, ∀ fqName part, top.Contains file.namePath fqName part →
    ∀ f ∈ part.fields, ∀ site ∈ Meant files file (Text.withoutDot f.typeName),
      (f.type = .message → site.place.kind = .message) ∧
      (f.type = .enum → site.place.kind = .enum)

/-- No full name starts with a dot. -/
def NoLeadingDots (files : List FileDescriptor) : Prop :=
  ∀ site : Site, site.DeclaredIn files → Text.withoutDot site.fqName = site.fqName

theorem Codec.exists_message {codec : Codec} {decl : MessageDecl} (hdecl : decl ∈ codec.messages)
    {name : String} (hname : decl.fqName = name) (hdots : Text.withoutDot name = name) :
    ∃ known, codec.message name = .ok known := by
  simp only [Codec.message, hdots]
  split
  · exact ⟨_, rfl⟩
  next hnone => exact absurd hname (by simpa using List.find?_eq_none.1 hnone decl hdecl)

theorem Codec.exists_enumeration {codec : Codec} {e : EnumDecl} (he : e ∈ codec.enums)
    {name : String} (hname : e.fqName = name) (hdots : Text.withoutDot name = name) :
    ∃ known, codec.enumeration name = .ok known := by
  simp only [Codec.enumeration, hdots]
  split
  · exact ⟨_, rfl⟩
  next hnone => exact absurd hname (by simpa using List.find?_eq_none.1 hnone e he)

theorem Except.exists_of_mapM {ε α β : Type} {f : α → Except ε β} {xs : List α} {bs : List β}
    (h : xs.mapM f = .ok bs) : ∀ x ∈ xs, ∃ b ∈ bs, f x = .ok b := by
  induction xs generalizing bs with
  | nil => simp
  | cons x xs ih =>
    rw [List.mapM_cons] at h
    obtain ⟨b, hb, h⟩ := exists_of_bind h
    obtain ⟨rest, hrest, h⟩ := exists_of_bind h
    cases h
    rw [List.forall_mem_cons]
    refine ⟨⟨b, List.mem_cons_self, hb⟩, fun y hy => ?_⟩
    obtain ⟨b', hb', hy⟩ := ih hrest y hy
    exact ⟨b', List.mem_cons_of_mem b hb', hy⟩

section

variable {files : List FileDescriptor} {language : Language} {trees : List FileTree}
  (h : DistinctFiles files)
  (hbuild : FileTree.build files (files.map (·.fileName)) language = .ok trees)

include h hbuild

/-- What a schema declares is declared in the tree of its file. -/
theorem exists_decl_of_site {site : Site} (hsite : site.DeclaredIn files) :
    ∃ tree ∈ trees, ∃ d ∈ tree.walk, d.fqName = site.fqName ∧ d.kind = site.place.kind := by
  have hfile : site.file ∈ files := List.mem_of_getElem? hsite.1
  have hmap := hbuild
  simp only [FileTree.build, Scope.ofFiles_eq h] at hmap
  obtain ⟨tree, htree, hok⟩ := Except.exists_of_mapM hmap _ (List.mem_map_of_mem hfile)
  simp only [h.find?_eq hfile] at hok
  have hwalk := FileTree.map_walk_of_ofFile hok
  have hmem : site.declaration ∈ Declaration.ofFile site.file := by
    rw [← map_places]
    exact List.mem_map_of_mem (mem_places.2 hsite.2)
  have href := List.mem_map_of_mem (f := Declaration.toRef) hmem
  rw [← hwalk, site.toRef_declaration] at href
  obtain ⟨d, hd, heq⟩ := List.mem_map.1 href
  exact ⟨tree, htree, d, hd, congrArg TypeRef.fqName heq, congrArg TypeRef.kind heq⟩

theorem exists_site_of_decl {tree : FileTree} (htree : tree ∈ trees) {d : Decl}
    (hd : d ∈ tree.walk) : ∃ site : Site, site.DeclaredIn files ∧ d.fqName = site.fqName := by
  obtain ⟨file, hfile, hok⟩ := FileTree.exists_of_build h hbuild tree htree
  obtain ⟨i, hi⟩ := List.mem_iff_getElem?.1 hfile
  have href := List.mem_map_of_mem (f := Decl.toRef tree.name tree.package) hd
  rw [FileTree.map_walk_of_ofFile hok, ← map_places, List.map_map] at href
  obtain ⟨place, hplace, heq⟩ := List.mem_map.1 href
  exact ⟨⟨i, file, place⟩, ⟨hi, mem_places.1 hplace⟩, (congrArg TypeRef.fqName heq).symm⟩

variable (hdots : NoLeadingDots files) (options : Options)

include hdots

theorem indexed_of_site {site : Site} (hsite : site.DeclaredIn files) :
    (site.place.kind = .message →
      ∃ decl, (Codec.ofTrees trees options).message site.fqName = .ok decl) ∧
    (site.place.kind = .enum →
      ∃ e, (Codec.ofTrees trees options).enumeration site.fqName = .ok e) := by
  obtain ⟨tree, htree, d, hd, hfqName, hkind⟩ := exists_decl_of_site h hbuild hsite
  have hmem : d ∈ (trees.flatMap FileTree.walk).reverse :=
    List.mem_reverse.2 (List.mem_flatMap.2 ⟨tree, htree, hd⟩)
  rw [← hkind]
  cases d with
  | enum e =>
    have he : e ∈ (Codec.ofTrees trees options).enums := List.mem_filterMap.2 ⟨_, hmem, rfl⟩
    exact ⟨by rintro ⟨⟩, fun _ => Codec.exists_enumeration he hfqName (hdots site hsite)⟩
  | message m children =>
    have hm : m ∈ (Codec.ofTrees trees options).messages := List.mem_filterMap.2 ⟨_, hmem, rfl⟩
    exact ⟨fun _ => Codec.exists_message hm hfqName (hdots site hsite), by rintro ⟨⟩⟩

/-- A codec of a whole schema knows every type that its fields refer to. -/
theorem Codec.closed_of_build (hnames : NamesMatch files) :
    (Codec.ofTrees trees options).Closed where
  formed := fun decl hdecl => (formed_of_build hbuild options decl hdecl).fields
  indexed := by
    intro decl hdecl field hf kind hkind
    obtain ⟨d, hd, hm⟩ := List.mem_filterMap.1 hdecl
    obtain ⟨tree, htree, hd⟩ := List.mem_flatMap.1 (List.mem_reverse.1 hd)
    obtain ⟨top, htop, hd⟩ := Decl.mem_walkAll.1 hd
    obtain ⟨file, hfile, hok⟩ := FileTree.exists_of_build h hbuild tree htree
    refine FileTree.hasKinds_of_ofFile hok ?_ top htop d hd decl hm field hf kind hkind
    -- What a field of a descriptor denotes is the one declaration that its name means.
    intro top htop fqName part hpart f hf kind hdenotes
    have hsite : ∀ ref, (Scope.ofDistinct files).Refers file.fileName f.typeName ref →
        ∃ site ∈ Meant files file (Text.withoutDot f.typeName), ref.fqName = site.fqName := by
      rintro _ ⟨found, root, hresolve, rfl⟩
      obtain ⟨site, hmeant, rfl⟩ := (resolve_eq_ok_iff h hfile _ _).1 hresolve
      exact ⟨site, by rw [hmeant]; rfl, rfl⟩
    cases hdenotes with
    | @message target htype hrefers =>
      obtain ⟨site, hmeant, hfqName⟩ := hsite target hrefers
      rw [Indexed, hfqName]
      exact (indexed_of_site h hbuild hdots options hmeant.1).1
        ((hnames file hfile top htop fqName part hpart f hf site hmeant).1 htype)
    | @enum target htype hrefers =>
      obtain ⟨site, hmeant, hfqName⟩ := hsite target hrefers
      rw [Indexed, hfqName]
      exact (indexed_of_site h hbuild hdots options hmeant.1).2
        ((hnames file hfile top htop fqName part hpart f hf site hmeant).2 htype)
    | scalar hnone => cases kind <;> trivial

end

/-- The places of a schema are enough to see that fields name what they are declared to hold. -/
theorem namesMatch_of_sites {files : List FileDescriptor}
    (h : ∀ file ∈ files, ∀ top ∈ file.messages, ∀ fqName part,
      top.Contains file.namePath fqName part → ∀ f ∈ part.fields, ∀ site ∈ sites files,
        site.fqName = Text.withoutDot f.typeName →
          (f.type = .message → site.place.kind = .message) ∧
          (f.type = .enum → site.place.kind = .enum)) : NamesMatch files := by
  intro file hfile top htop fqName part hpart f hf site hsite
  exact h file hfile top htop fqName part hpart f hf site (mem_sites.2 hsite.1) hsite.2.1

/-- A file in which the name of a message starts with a dot. -/
def thorn : FileDescriptor :=
  { name := some "thorn.proto"
    messages := [
      { name := ".Leaf" },
      { name := "Tree"
        fields := [{ name := "leaf", number := 1, type := .message, typeName := "..Leaf" }] }] }

end ProtoStub
