import Mathlib.Data.List.Nodup
import Mathlib.Logic.Relation
import ProtoStub.Scope.Resolve

/-!
# What a file sees

A file sees itself and whatever it reaches through its dependencies, in a graph that may have
cycles and may name files that are not there. The search for it works on positions and keeps a
list of things to do; `mem_reachable` shows that it ends with exactly what can be reached, and
`mem_visible` carries this over from positions to files (`Sees`). With that, the candidates for
a name are the declarations of the name in the files that are seen (`isCandidate_iff`).

The invariant of the search is `Frontier`: what follows a number that was seen was itself seen or
is still to be done. Once nothing is left to do it says that the seen numbers are closed, and this
is all that completeness needs.
-/

namespace ProtoStub

open Relation (ReflTransGen)

namespace Scope

/-! ## The search -/

section Search

variable {next : Nat → List Nat} {bound : Nat} {todo seen : List Nat} {i j : Nat}

variable (next bound) in
/-- An edge of the graph to a number below the bound. -/
def Edge (i j : Nat) : Prop := j ∈ next i ∧ j < bound

variable (next bound) in
/-- What follows a number that was seen was seen too, or is still to be done. -/
def Frontier (todo seen : List Nat) : Prop :=
  ∀ i ∈ seen, ∀ j, Edge next bound i j → j ∈ seen ∨ j ∈ todo

theorem Frontier.skip (h : Frontier next bound (i :: todo) seen) (hi : ¬ (i < bound ∧ i ∉ seen)) :
    Frontier next bound todo seen := by
  intro k hk j hj
  rcases h k hk j hj with hseen | htodo
  · exact .inl hseen
  · rcases List.mem_cons.1 htodo with rfl | htodo
    · left
      by_contra hnew
      exact hi ⟨hj.2, hnew⟩
    · exact .inr htodo

theorem Frontier.visit (h : Frontier next bound (i :: todo) seen) :
    Frontier next bound (next i ++ todo) (i :: seen) := by
  intro k hk j hj
  rcases List.mem_cons.1 hk with rfl | hk
  · exact .inr (List.mem_append_left _ hj.1)
  · rcases h k hk j hj with hseen | htodo
    · exact .inl (List.mem_cons_of_mem _ hseen)
    · rcases List.mem_cons.1 htodo with rfl | htodo
      · exact .inl List.mem_cons_self
      · exact .inr (List.mem_append_right _ htodo)

/-- Nothing that was seen is lost, and what is on the list is seen in the end. -/
theorem mem_closure (h : j ∈ seen ∨ j < bound ∧ j ∈ todo) : j ∈ closure next bound todo seen := by
  fun_induction closure next bound todo seen with
  | case1 seen =>
    rcases h with hseen | ⟨-, htodo⟩
    · exact hseen
    · cases htodo
  | case2 seen i todo hi ih =>
    apply ih
    rcases h with hseen | ⟨hlt, hmem⟩
    · exact .inl (List.mem_cons_of_mem _ hseen)
    · rcases List.mem_cons.1 hmem with rfl | hmem
      · exact .inl List.mem_cons_self
      · exact .inr ⟨hlt, List.mem_append_right _ hmem⟩
  | case3 seen i todo hi ih =>
    apply ih
    rcases h with hseen | ⟨hlt, hmem⟩
    · exact .inl hseen
    · rcases List.mem_cons.1 hmem with rfl | hmem
      · left
        by_contra hnew
        exact hi ⟨hlt, hnew⟩
      · exact .inr ⟨hlt, hmem⟩

theorem closed_closure (h : Frontier next bound todo seen) (hi : i ∈ closure next bound todo seen)
    (hj : Edge next bound i j) : j ∈ closure next bound todo seen := by
  fun_induction closure next bound todo seen with
  | case1 seen =>
    rcases h i hi j hj with hseen | htodo
    · exact hseen
    · cases htodo
  | case2 seen k todo hk ih => exact ih h.visit hi
  | case3 seen k todo hk ih => exact ih (h.skip hk) hi

theorem path_of_mem_closure (h : j ∈ closure next bound todo seen) :
    j ∈ seen ∨ ∃ i ∈ todo, i < bound ∧ ReflTransGen (Edge next bound) i j := by
  fun_induction closure next bound todo seen with
  | case1 seen => exact .inl h
  | case2 seen i todo hi ih =>
    rcases ih h with hseen | ⟨k, hk, hlt, hpath⟩
    · rcases List.mem_cons.1 hseen with rfl | hseen
      · exact .inr ⟨j, List.mem_cons_self, hi.1, .refl⟩
      · exact .inl hseen
    · right
      rcases List.mem_append.1 hk with hk | hk
      · exact ⟨i, List.mem_cons_self, hi.1, .head ⟨hk, hlt⟩ hpath⟩
      · exact ⟨k, List.mem_cons_of_mem _ hk, hlt, hpath⟩
  | case3 seen i todo hi ih =>
    rcases ih h with hseen | ⟨k, hk, hlt, hpath⟩
    · exact .inl hseen
    · exact .inr ⟨k, List.mem_cons_of_mem _ hk, hlt, hpath⟩

/-- The search finds what can be reached and nothing else. -/
theorem mem_reachable (hi : i < bound) :
    j ∈ reachable next bound i ↔ ReflTransGen (Edge next bound) i j := by
  simp only [reachable, List.mem_filter, List.mem_range, decide_eq_true_eq]
  constructor
  · rintro ⟨-, hj⟩
    rcases path_of_mem_closure hj with hseen | ⟨k, hk, -, hpath⟩
    · cases hseen
    · rwa [List.mem_singleton.1 hk] at hpath
  · intro hpath
    induction hpath with
    | refl => exact ⟨hi, mem_closure (.inr ⟨hi, List.mem_singleton_self i⟩)⟩
    | tail _ hedge ih =>
      have hstart : Frontier next bound [i] [] := fun k hk => absurd hk List.not_mem_nil
      exact ⟨hedge.2, closed_closure hstart ih.2 hedge⟩

end Search

end Scope

/-! ## Files -/

/-- Files that all have names, no two the same. -/
structure DistinctFiles (files : List FileDescriptor) : Prop where
  named : ∀ file ∈ files, file.name.isSome = true
  distinct : (files.map (·.fileName)).Nodup

/-- A file depends on those of the schema that it names as dependencies. -/
def DependsOn (files : List FileDescriptor) (f g : FileDescriptor) : Prop :=
  g ∈ files ∧ g.fileName ∈ f.dependencies

/-- A file sees itself and everything that it reaches through dependencies. -/
def Sees (files : List FileDescriptor) : FileDescriptor → FileDescriptor → Prop :=
  ReflTransGen (DependsOn files)

theorem Sees.mem {files : List FileDescriptor} {f g : FileDescriptor} (h : Sees files f g)
    (hf : f ∈ files) : g ∈ files := by
  rcases ReflTransGen.cases_tail h with rfl | ⟨_, -, hedge⟩
  · exact hf
  · exact hedge.1

namespace DistinctFiles

variable {files : List FileDescriptor} {f g : FileDescriptor} {i j : Nat}

theorem nodup (h : DistinctFiles files) : files.Nodup := h.distinct.of_map

theorem eq_of_fileName (h : DistinctFiles files) (hf : f ∈ files) (hg : g ∈ files)
    (heq : f.fileName = g.fileName) : f = g :=
  List.inj_on_of_nodup_map h.distinct hf hg heq

theorem index_unique (h : DistinctFiles files) (hi : files[i]? = some f)
    (hj : files[j]? = some f) : i = j := by
  obtain ⟨hlt, -⟩ := List.getElem?_eq_some_iff.1 hi
  exact (List.getElem?_inj hlt h.nodup).1 (hi.trans hj.symm)

end DistinctFiles

namespace Scope

/-- The scope of files that all have names. -/
def ofDistinct (files : List FileDescriptor) : Scope :=
  { fileNames := files.map (·.fileName)
    dependencies := files.map (·.dependencies)
    declarations := files.flatMap Declaration.ofFile }

section

variable {files : List FileDescriptor} {f g : FileDescriptor} {i j : Nat}

theorem ofFiles_eq (h : DistinctFiles files) : ofFiles files = .ok (ofDistinct files) := by
  have hnone : files.findIdx? (·.name.isNone) = none := by
    rw [List.findIdx?_eq_none_iff]
    intro file hfile
    simpa using h.named file hfile
  simp only [ofFiles, hnone]
  rfl

theorem fileIndex?_eq_some (h : DistinctFiles files) {name : String} :
    (ofDistinct files).fileIndex? name = some i ↔
      ∃ file, files[i]? = some file ∧ file.fileName = name := by
  -- A pair of a name and a position that the search may meet is a file at that position.
  have hpair : ∀ p : String × Nat, p ∈ (ofDistinct files).fileNames.zipIdx.reverse ↔
      ∃ file, files[p.2]? = some file ∧ file.fileName = p.1 := by
    intro p
    simp only [List.mem_reverse, List.mem_zipIdx_iff_getElem?, ofDistinct, List.getElem?_map,
      Option.map_eq_some_iff]
  constructor
  · intro hindex
    obtain ⟨p, hfind, rfl⟩ := Option.map_eq_some_iff.1 hindex
    have hname : p.1 = name := by simpa using List.find?_some hfind
    rw [← hname]
    exact (hpair p).1 (List.mem_of_find?_eq_some hfind)
  · rintro ⟨file, hfile, rfl⟩
    cases hfind : (ofDistinct files).fileNames.zipIdx.reverse.find? (·.1 = file.fileName) with
    | none =>
      have := List.find?_eq_none.1 hfind (file.fileName, i) ((hpair _).2 ⟨file, hfile, rfl⟩)
      simp at this
    | some p =>
      obtain ⟨file', hfile', hname'⟩ := (hpair p).1 (List.mem_of_find?_eq_some hfind)
      have hname : p.1 = file.fileName := by simpa using List.find?_some hfind
      obtain rfl : file' = file :=
        h.eq_of_fileName (List.mem_of_getElem? hfile') (List.mem_of_getElem? hfile)
          (hname'.trans hname)
      rw [fileIndex?, hfind, Option.map_some, h.index_unique hfile' hfile]

theorem edge_iff (h : DistinctFiles files) (hi : files[i]? = some f) :
    Edge (ofDistinct files).successors (ofDistinct files).fileNames.length i j ↔
      ∃ g, files[j]? = some g ∧ DependsOn files f g := by
  have hdeps : ((ofDistinct files).dependencies[i]?).getD [] = f.dependencies := by
    simp [ofDistinct, List.getElem?_map, hi]
  simp only [Edge, successors, hdeps, List.mem_filterMap, fileIndex?_eq_some h]
  constructor
  · rintro ⟨⟨name, hname, g, hg, rfl⟩, -⟩
    exact ⟨g, hg, List.mem_of_getElem? hg, hname⟩
  · rintro ⟨g, hg, hedge⟩
    refine ⟨⟨g.fileName, hedge.2, g, hg, rfl⟩, ?_⟩
    simpa [ofDistinct] using (List.getElem?_eq_some_iff.1 hg).1

theorem path_iff (h : DistinctFiles files) (hi : files[i]? = some f) :
    ReflTransGen (Edge (ofDistinct files).successors (ofDistinct files).fileNames.length) i j ↔
      ∃ g, files[j]? = some g ∧ Sees files f g := by
  constructor
  · intro hpath
    induction hpath with
    | refl => exact ⟨f, hi, .refl⟩
    | tail _ hedge ih =>
      obtain ⟨b, hb, hsees⟩ := ih
      obtain ⟨g, hg, hdepends⟩ := (edge_iff h hb).1 hedge
      exact ⟨g, hg, hsees.tail hdepends⟩
  · rintro ⟨g, hg, hsees⟩
    induction hsees generalizing j with
    | refl => rw [h.index_unique hi hg]
    | @tail b g hsees hdepends ih =>
      have hb : b ∈ files := Sees.mem hsees (List.mem_of_getElem? hi)
      obtain ⟨k, hk⟩ := List.mem_iff_getElem?.1 hb
      exact (ih hk).tail ((edge_iff h hk).2 ⟨g, hg, hdepends⟩)

/-- The positions that are visible are those of the files that are seen. -/
theorem mem_visible (h : DistinctFiles files) (hi : files[i]? = some f) (hj : files[j]? = some g) :
    j ∈ (ofDistinct files).visible i ↔ Sees files f g := by
  have hlt : i < (ofDistinct files).fileNames.length := by
    simpa [ofDistinct] using (List.getElem?_eq_some_iff.1 hi).1
  rw [visible, mem_reachable hlt, path_iff h hi, hj]
  simp

/-! ## Candidates -/

/-- Whether a declaration has a full name and is in one of the files at the given positions. -/
def isCandidate (scope : Scope) (positions : List Nat) (fqName : String) (d : Declaration) :
    Bool :=
  d.fqName = fqName &&
    match scope.fileIndex? d.file with
    | none => false
    | some index => index ∈ positions

theorem candidates_eq_filter (scope : Scope) (positions : List Nat) (fqName : String) :
    scope.candidates positions fqName =
      scope.declarations.filter (scope.isCandidate positions fqName) := by
  rw [candidates, lookup, List.filter_filter]
  congr 1
  funext d
  exact Bool.and_comm _ _

theorem isCandidate_iff (h : DistinctFiles files) (hi : files[i]? = some f) (hg : g ∈ files)
    {d : Declaration} (hd : d.file = g.fileName) (fqName : String) :
    (ofDistinct files).isCandidate ((ofDistinct files).visible i) fqName d = true ↔
      d.fqName = fqName ∧ Sees files f g := by
  obtain ⟨j, hj⟩ := List.mem_iff_getElem?.1 hg
  have hindex : (ofDistinct files).fileIndex? d.file = some j :=
    (fileIndex?_eq_some h).2 ⟨g, hj, hd.symm⟩
  simp only [isCandidate, hindex, Bool.and_eq_true, decide_eq_true_eq, mem_visible h hi hj]

/-- What the declarations that are found for a name come to. -/
def answer (fqName file : String) : List Declaration → Except Error TypeRef
  | [] => .error (.unresolved fqName file)
  | [d] => .ok d.toRef
  | many => .error (.ambiguous fqName file (many.map (·.file)))

theorem resolve_eq_answer (h : DistinctFiles files) (hi : files[i]? = some f) (name : String) :
    (ofDistinct files).resolve name f.fileName =
      answer (Text.withoutDot name) f.fileName ((ofDistinct files).declarations.filter
        ((ofDistinct files).isCandidate ((ofDistinct files).visible i) (Text.withoutDot name))) := by
  have hindex : (ofDistinct files).fileIndex? f.fileName = some i :=
    (fileIndex?_eq_some h).2 ⟨f, hi, rfl⟩
  simp only [resolve, hindex, candidates_eq_filter]
  generalize (ofDistinct files).declarations.filter _ = found
  match found with
  | [] => rfl
  | [_] => rfl
  | _ :: _ :: _ => rfl

end

end Scope
end ProtoStub
