import Mathlib.Data.List.Induction
import ProtoStub.ModulePath
import ProtoStub.Proofs.Resolution

/-!
# Import paths lead to their modules

A module names another by the way to it: up from its own directory and down again. Following such
a path from the directory ends at the module that it was made for (`follow_relative`), whatever the
directory is. So the path tells the modules of two schema files apart (`relative_injective`), and
imports can be kept by their paths. The same holds of files of any name that is a path down to
them, and the path is written so that it is read as a relative one (`resolve_relative`).
-/

namespace ProtoStub

namespace Text

/-! ## Pieces -/

theorem splitAtEach_eq_splitOn (sep : Char) (cs : List Char) :
    splitAtEach sep cs = cs.splitOn sep := by
  induction cs with
  | nil => rfl
  | cons c cs ih =>
    rw [splitAtEach, ih, List.splitOn_cons_eq_if_modifyHead]
    by_cases hc : c = sep
    · simp [hc]
    · simp only [if_neg hc, beq_iff_eq]
      cases h : cs.splitOn sep with
      | nil => exact absurd h (List.splitOn_ne_nil sep cs)
      | cons p ps => rfl

theorem intercalate_pieces (s : String) : "/".intercalate (pieces '/' s) = s := by
  apply String.toList_inj.1
  have hpieces : (pieces '/' s).map String.toList = s.toList.splitOn '/' := by
    simp [pieces, splitAtEach_eq_splitOn, Function.comp_def]
  rw [String.toList_intercalate, hpieces]
  exact List.intercalate_splitOn '/'

/-- Parts without a separator are what stands between the separators. -/
theorem pieces_intercalate_of_toList {sep : Char} {text : String} (htext : text.toList = [sep])
    {parts : List String} (hne : parts ≠ []) (h : ∀ part ∈ parts, sep ∉ part.toList) :
    pieces sep (text.intercalate parts) = parts := by
  have hsplit : ([sep].intercalate (parts.map String.toList)).splitOn sep =
      parts.map String.toList := by
    apply List.splitOn_intercalate
    · simpa using h
    · simpa using hne
  rw [pieces, splitAtEach_eq_splitOn, String.toList_intercalate, htext, hsplit]
  simp [Function.comp_def]

theorem pieces_intercalate {parts : List String} (hne : parts ≠ [])
    (h : ∀ part ∈ parts, '/' ∉ part.toList) : pieces '/' ("/".intercalate parts) = parts :=
  pieces_intercalate_of_toList rfl hne h

theorem not_mem_of_mem_splitAtEach {sep : Char} {cs : List Char} :
    ∀ part ∈ splitAtEach sep cs, sep ∉ part := by
  induction cs with
  | nil => simp [splitAtEach]
  | cons c cs ih =>
    rw [splitAtEach]
    by_cases hc : c = sep
    · rw [if_pos hc, List.forall_mem_cons]
      exact ⟨List.not_mem_nil, ih⟩
    · rw [if_neg hc]
      cases hsplit : splitAtEach sep cs with
      | nil => simpa using Ne.symm hc
      | cons p ps =>
        rw [hsplit, List.forall_mem_cons] at ih
        rw [List.forall_mem_cons]
        exact ⟨List.not_mem_cons_of_ne_of_not_mem (Ne.symm hc) ih.1, ih.2⟩

theorem not_mem_of_mem_pieces {s part : String} (h : part ∈ pieces '/' s) :
    '/' ∉ part.toList := by
  obtain ⟨cs, hcs, rfl⟩ := List.mem_map.1 h
  rw [String.toList_ofList]
  exact not_mem_of_mem_splitAtEach cs hcs

theorem intercalate_concat_append (front : List String) (last t : String) :
    "/".intercalate (front ++ [last ++ t]) = "/".intercalate (front ++ [last]) ++ t := by
  by_cases hfront : front = []
  · simp [hfront]
  · simp [String.intercalate_append_of_ne_nil hfront, String.append_assoc]

/-- What is written after a text without a separator goes to the last piece. -/
theorem pieces_append {s t last : String} {front : List String}
    (h : pieces '/' s = front ++ [last]) (ht : '/' ∉ t.toList) :
    pieces '/' (s ++ t) = front ++ [last ++ t] := by
  have hslash : ∀ part ∈ front ++ [last], '/' ∉ part.toList := by
    intro part hpart
    exact not_mem_of_mem_pieces (h ▸ hpart)
  rw [List.forall_mem_append, List.forall_mem_singleton] at hslash
  conv_lhs => rw [← intercalate_pieces s, h, ← intercalate_concat_append]
  apply pieces_intercalate (by simp)
  rw [List.forall_mem_append, List.forall_mem_singleton]
  refine ⟨hslash.1, ?_⟩
  simp [hslash.2, ht]

theorem beforeEnd?_append (s finish : String) : beforeEnd? finish (s ++ finish) = some s := by
  simp [beforeEnd?, dropStart?_append]

theorem eq_append_of_dropStart? {start cs rest : List Char} (h : dropStart? start cs = some rest) :
    cs = start ++ rest := by
  fun_induction dropStart? start cs with
  | case1 cs => exact Option.some.inj h
  | case2 => cases h
  | case3 start c cs ih => rw [ih h, List.cons_append]
  | case4 => cases h

theorem eq_append_of_afterStart? {start s rest : String} (h : afterStart? start s = some rest) :
    s = start ++ rest := by
  obtain ⟨cs, hcs, rfl⟩ := Option.map_eq_some_iff.1 h
  apply String.toList_inj.1
  rw [eq_append_of_dropStart? hcs]
  simp

theorem eq_append_of_beforeEnd? {finish s rest : String} (h : beforeEnd? finish s = some rest) :
    s = rest ++ finish := by
  obtain ⟨cs, hcs, rfl⟩ := Option.map_eq_some_iff.1 h
  apply String.toList_inj.1
  rw [← List.reverse_inj, eq_append_of_dropStart? hcs]
  simp

end Text

namespace ModulePath

/-! ## Following a path -/

/-- The directory or the file that a segment leads to from a directory. -/
def enter (directory : List String) (segment : String) : List String :=
  if segment = "." then directory
  else if segment = ".." then directory.dropLast
  else directory ++ [segment]

/-- Where a path leads from a directory. -/
def follow (directory : List String) (path : String) : List String :=
  (Text.pieces '/' path).foldl enter directory

/-- A segment that leads down. -/
def LeadsDown (segment : String) : Prop := segment ≠ "" ∧ segment ≠ "." ∧ segment ≠ ".."

theorem foldl_enter_up (common up : List String) :
    (List.replicate up.length "..").foldl enter (common ++ up) = common := by
  induction up using List.reverseRecOn with
  | nil => simp
  | append_singleton up last ih =>
    rw [List.length_append, List.length_singleton, List.replicate_succ, List.foldl_cons]
    have hup : enter (common ++ (up ++ [last])) ".." = common ++ up := by
      simp [enter, ← List.append_assoc]
    rw [hup, ih]

theorem foldl_enter_down {down : List String} (h : ∀ segment ∈ down, LeadsDown segment)
    (directory : List String) : down.foldl enter directory = directory ++ down := by
  induction down generalizing directory with
  | nil => simp
  | cons segment down ih =>
    rw [List.forall_mem_cons] at h
    obtain ⟨⟨-, hdot, hdots⟩, hdown⟩ := h
    rw [List.foldl_cons, ih hdown, enter, if_neg hdot, if_neg hdots]
    simp

theorem exists_common (source target : List String) :
    ∃ common, source = common ++ (dropCommon source target).1 ∧
      target = common ++ (dropCommon source target).2 := by
  fun_induction dropCommon source target with
  | case1 as a bs ih =>
    obtain ⟨common, hsource, htarget⟩ := ih
    exact ⟨a :: common, congrArg (a :: ·) hsource, congrArg (a :: ·) htarget⟩
  | case2 => exact ⟨[], rfl, rfl⟩
  | case3 => exact ⟨[], rfl, rfl⟩

/-- The way goes up to a common directory and down from there. -/
theorem exists_stepsTo_eq (source target : List String) (file : String) :
    ∃ common up down, source = common ++ up ∧ target = common ++ down ∧
      stepsTo source target file = List.replicate up.length ".." ++ (down ++ [file]) := by
  obtain ⟨common, hsource, htarget⟩ := exists_common source target
  refine ⟨common, _, _, hsource, htarget, ?_⟩
  rw [← List.append_assoc]
  rfl

theorem mem_stepsTo {source target : List String} {file segment : String}
    (h : segment ∈ stepsTo source target file) : segment = ".." ∨ segment ∈ target ++ [file] := by
  obtain ⟨common, up, down, -, htarget, hsteps⟩ := exists_stepsTo_eq source target file
  rw [hsteps, List.mem_append] at h
  rcases h with hup | hdown
  · exact .inl (List.eq_of_mem_replicate hup)
  · right
    rw [htarget, List.append_assoc]
    exact List.mem_append_right common hdown

theorem foldl_enter_stepsTo {source target : List String} {file : String}
    (h : ∀ segment ∈ target ++ [file], LeadsDown segment) :
    (stepsTo source target file).foldl enter source = target ++ [file] := by
  obtain ⟨common, up, down, hsource, htarget, hsteps⟩ := exists_stepsTo_eq source target file
  have hdown : ∀ segment ∈ down ++ [file], LeadsDown segment := by
    intro segment hsegment
    apply h
    rw [htarget, List.append_assoc]
    exact List.mem_append_right common hsegment
  rw [hsteps, List.foldl_append, hsource, foldl_enter_up, foldl_enter_down hdown, htarget,
    List.append_assoc]

/-! ## Names of files -/

/-- The name of a schema file, which is a path down to it. -/
def IsSchemaPath (file : String) : Prop :=
  ∃ directory stem, Text.pieces '/' file = directory ++ [stem ++ ".proto"] ∧
    ∀ segment ∈ directory, LeadsDown segment

/-- What modules import the module of a schema file as. -/
def moduleName (stem : String) : Language → String
  | .typeScript => stem ++ ".pb"
  | .javaScript => stem ++ ".pb.js"

theorem importName_eq (stem : String) (language : Language) :
    importName (stem ++ (".pb." ++ language.fileExtension)) language =
      moduleName stem language := by
  cases language with
  | javaScript => rfl
  | typeScript =>
    have hend : stem ++ (".pb." ++ Language.typeScript.fileExtension) = stem ++ ".pb" ++ ".ts" := by
      simp [Language.fileExtension, String.append_assoc]
    rw [importName, hend, Text.beforeEnd?_append]
    rfl

theorem leadsDown_moduleName (stem : String) (language : Language) :
    LeadsDown (moduleName stem language) := by
  have hlength : 3 ≤ (moduleName stem language).length := by
    cases language <;> rw [moduleName, String.length_append] <;>
      exact Nat.le_add_left_of_le (by decide)
  refine ⟨?_, ?_, ?_⟩
  all_goals
    intro heq
    rw [heq] at hlength
    exact absurd hlength (by decide)

section

variable {file stem : String} {directory : List String}

theorem slashFree_of_pieces (h : Text.pieces '/' file = directory ++ [stem ++ ".proto"]) :
    (∀ segment ∈ directory, '/' ∉ segment.toList) ∧ '/' ∉ stem.toList := by
  have hslash : ∀ part ∈ directory ++ [stem ++ ".proto"], '/' ∉ part.toList := by
    intro part hpart
    exact Text.not_mem_of_mem_pieces (h ▸ hpart)
  rw [List.forall_mem_append, List.forall_mem_singleton] at hslash
  refine ⟨hslash.1, fun hmem => hslash.2 ?_⟩
  rw [String.toList_append]
  exact List.mem_append_left _ hmem

theorem pieces_generated (h : Text.pieces '/' file = directory ++ [stem ++ ".proto"])
    (language : Language) :
    Text.pieces '/' (generated file language) =
      directory ++ [stem ++ (".pb." ++ language.fileExtension)] := by
  have hfile : file = "/".intercalate (directory ++ [stem]) ++ ".proto" := by
    rw [← Text.intercalate_concat_append, ← h, Text.intercalate_pieces]
  have hpieces : Text.pieces '/' ("/".intercalate (directory ++ [stem])) = directory ++ [stem] := by
    apply Text.pieces_intercalate (by simp)
    rw [List.forall_mem_append, List.forall_mem_singleton]
    exact slashFree_of_pieces h
  rw [generated, hfile, Text.beforeEnd?_append, Option.getD_some, String.append_assoc]
  apply Text.pieces_append hpieces
  cases language <;> decide

theorem slashFree_moduleName {language : Language}
    (h : '/' ∉ (stem ++ (".pb." ++ language.fileExtension)).toList) :
    '/' ∉ (moduleName stem language).toList := by
  rw [String.toList_append, List.mem_append, not_or] at h
  cases language <;> simp [moduleName, h.1]

/-- The segments of an import path are the steps to the module, with a dot in front if no step
goes up. -/
theorem pieces_relative {target : String} {language : Language}
    (h : Text.pieces '/' target = directory ++ [stem ++ (".pb." ++ language.fileExtension)])
    (source : String) :
    let steps := stepsTo (Text.pieces '/' source).dropLast directory (moduleName stem language)
    Text.pieces '/' (relative source target language) = steps ∨
      Text.pieces '/' (relative source target language) = "." :: steps := by
  intro steps
  have hparts : ∀ part ∈ directory ++ [stem ++ (".pb." ++ language.fileExtension)],
      '/' ∉ part.toList := by
    intro part hpart
    exact Text.not_mem_of_mem_pieces (h ▸ hpart)
  rw [List.forall_mem_append, List.forall_mem_singleton] at hparts
  have hslash : ∀ segment ∈ steps, '/' ∉ segment.toList := by
    intro segment hsegment
    rcases mem_stepsTo hsegment with rfl | hsegment
    · decide
    rcases List.mem_append.1 hsegment with hsegment | hsegment
    · exact hparts.1 segment hsegment
    · obtain rfl := List.mem_singleton.1 hsegment
      exact slashFree_moduleName hparts.2
  have hne : steps ≠ [] := by simp [steps, stepsTo]
  have hrelative : relative source target language = "/".intercalate steps ∨
      relative source target language = "/".intercalate ("." :: steps) := by
    rw [relative, h, List.dropLast_concat, List.getLastD_concat, importName_eq,
      String.intercalate_cons_of_ne_nil hne]
    split
    · exact .inl rfl
    · exact .inr rfl
  rcases hrelative with hrelative | hrelative
  · rw [hrelative, Text.pieces_intercalate hne hslash]
    exact .inl rfl
  · rw [hrelative, Text.pieces_intercalate (List.cons_ne_nil _ _)]
    · exact .inr rfl
    · rw [List.forall_mem_cons]
      exact ⟨by decide, hslash⟩

/-- The path by which a module imports another leads to it from the module's directory. -/
theorem follow_relative_of_pieces {target : String} {language : Language}
    (h : Text.pieces '/' target = directory ++ [stem ++ (".pb." ++ language.fileExtension)])
    (hdown : ∀ segment ∈ directory, LeadsDown segment) (source : String) :
    follow (Text.pieces '/' source).dropLast (relative source target language) =
      directory ++ [moduleName stem language] := by
  generalize hsteps : stepsTo (Text.pieces '/' source).dropLast directory
    (moduleName stem language) = steps
  have hlead : steps.foldl enter (Text.pieces '/' source).dropLast =
      directory ++ [moduleName stem language] := by
    rw [← hsteps]
    apply foldl_enter_stepsTo
    rw [List.forall_mem_append, List.forall_mem_singleton]
    exact ⟨hdown, leadsDown_moduleName stem language⟩
  have hpieces := pieces_relative h source
  rw [hsteps] at hpieces
  rcases hpieces with hpieces | hpieces
  · rw [follow, hpieces, hlead]
  · -- The dot in front stays where it is.
    rw [follow, hpieces, List.foldl_cons]
    exact hlead

theorem follow_relative (h : Text.pieces '/' file = directory ++ [stem ++ ".proto"])
    (hdown : ∀ segment ∈ directory, LeadsDown segment) (source : String) (language : Language) :
    follow (Text.pieces '/' source).dropLast
        (relative source (generated file language) language) =
      directory ++ [moduleName stem language] :=
  follow_relative_of_pieces (pieces_generated h language) hdown source

theorem moduleName_injective {stem stem' : String} {language : Language}
    (h : moduleName stem language = moduleName stem' language) : stem = stem' := by
  cases language <;> exact String.append_left_inj _ |>.1 h

end

/-- The path by which a module is imported tells from which schema file it was generated. -/
theorem relative_injective {file file' : String} (h : IsSchemaPath file) (h' : IsSchemaPath file')
    {source : String} {language : Language}
    (heq : relative source (generated file language) language =
      relative source (generated file' language) language) : file = file' := by
  obtain ⟨directory, stem, hpieces, hdown⟩ := h
  obtain ⟨directory', stem', hpieces', hdown'⟩ := h'
  have hfollow := follow_relative hpieces hdown source language
  rw [heq, follow_relative hpieces' hdown' source language] at hfollow
  obtain ⟨rfl, hname⟩ := List.append_inj' hfollow rfl
  obtain rfl := moduleName_injective (List.singleton_inj.1 hname)
  rw [← Text.intercalate_pieces file, hpieces, ← hpieces', Text.intercalate_pieces]

/-! ## Resolving a path -/

/-- The name of a file that is reached from the root by going down only. -/
def IsRelativePath (file : String) : Prop := ∀ segment ∈ Text.pieces '/' file, LeadsDown segment

/-- Where an import path leads from the directory of the importing module. -/
def resolve (source path : String) : String :=
  "/".intercalate (follow (Text.pieces '/' source).dropLast path)

/-- The extension that import paths leave out. -/
def leftOut : Language → String
  | .typeScript => ".ts"
  | .javaScript => ""

theorem moduleName_append_leftOut (stem : String) (language : Language) :
    moduleName stem language ++ leftOut language = stem ++ (".pb." ++ language.fileExtension) := by
  cases language <;> simp [moduleName, leftOut, Language.fileExtension, String.append_assoc]

theorem exists_pieces_eq_concat (s : String) :
    ∃ front last, Text.pieces '/' s = front ++ [last] := by
  have hne : Text.pieces '/' s ≠ [] := by
    intro hnil
    have hsplit := List.splitOn_ne_nil '/' s.toList
    rw [← Text.splitAtEach_eq_splitOn] at hsplit
    exact hsplit (List.map_eq_nil_iff.1 hnil)
  exact ⟨_, _, (List.dropLast_concat_getLast hne).symm⟩

/-- The module of a file stands in the directory of the file, which leads down. -/
theorem IsRelativePath.exists_pieces_generated {file : String} (h : IsRelativePath file)
    (language : Language) :
    ∃ directory stem, (∀ segment ∈ directory, LeadsDown segment) ∧
      Text.pieces '/' (generated file language) =
        directory ++ [stem ++ (".pb." ++ language.fileExtension)] := by
  have hext : '/' ∉ (".pb." ++ language.fileExtension).toList := by cases language <;> decide
  cases hend : Text.beforeEnd? ".proto" file with
  | none =>
    obtain ⟨directory, last, hpieces⟩ := exists_pieces_eq_concat file
    refine ⟨directory, last, fun segment hsegment => h segment ?_, ?_⟩
    · rw [hpieces]
      exact List.mem_append_left _ hsegment
    · rw [generated, hend, Option.getD_none, String.append_assoc]
      exact Text.pieces_append hpieces hext
  | some base =>
    obtain ⟨directory, stem, hpieces⟩ := exists_pieces_eq_concat base
    refine ⟨directory, stem, fun segment hsegment => h segment ?_, ?_⟩
    · rw [Text.eq_append_of_beforeEnd? hend, Text.pieces_append hpieces (by decide)]
      exact List.mem_append_left _ hsegment
    · rw [generated, hend, Option.getD_some, String.append_assoc]
      exact Text.pieces_append hpieces hext

/-- An import path goes up no further than to the root. -/
theorem count_up_le {source target stem : String} {directory : List String} {language : Language}
    (h : Text.pieces '/' target = directory ++ [stem ++ (".pb." ++ language.fileExtension)])
    (hdown : ∀ segment ∈ directory, LeadsDown segment) :
    (Text.pieces '/' (relative source target language)).count ".." ≤
      (Text.pieces '/' source).dropLast.length := by
  obtain ⟨common, up, down, hsource, htarget, hsteps⟩ :=
    exists_stepsTo_eq (Text.pieces '/' source).dropLast directory (moduleName stem language)
  have hcount : (stepsTo (Text.pieces '/' source).dropLast directory
      (moduleName stem language)).count ".." = up.length := by
    have hnone : ".." ∉ down ++ [moduleName stem language] := by
      rw [List.mem_append, List.mem_singleton, not_or]
      refine ⟨fun hmem => ?_, (leadsDown_moduleName stem language).2.2.symm⟩
      exact (hdown ".." (htarget ▸ List.mem_append_right common hmem)).2.2 rfl
    rw [hsteps, List.count_append, List.count_replicate_self, List.count_eq_zero_of_not_mem hnone,
      Nat.add_zero]
  have hlength : up.length ≤ (Text.pieces '/' source).dropLast.length := by
    rw [hsource, List.length_append]
    exact Nat.le_add_left _ _
  rcases pieces_relative h source with hpieces | hpieces
  · rwa [hpieces, hcount]
  · rwa [hpieces, List.count_cons_of_ne (by decide), hcount]

theorem relative_starts (source target : String) (language : Language) :
    (∃ rest, relative source target language = "./" ++ rest) ∨
      ∃ rest, relative source target language = "../" ++ rest := by
  rw [relative]
  split
  next hup => exact .inr ⟨_, Text.eq_append_of_afterStart? hup⟩
  next => exact .inl ⟨_, rfl⟩

theorem IsRelativePath.resolve_append {file : String} (h : IsRelativePath file) (source : String)
    (language : Language) :
    resolve source (relative source (generated file language) language) ++ leftOut language =
      generated file language := by
  obtain ⟨directory, stem, hdown, hpieces⟩ := h.exists_pieces_generated language
  rw [resolve, follow_relative_of_pieces hpieces hdown, ← Text.intercalate_concat_append,
    moduleName_append_leftOut, ← hpieces, Text.intercalate_pieces]

/-- The path by which a module imports the module of a file, resolved against the directory of the
importing module, gives the imported module without the extension that is left out. It never goes
up beyond the root, it starts as relative paths do, and different modules have different paths. -/
theorem resolve_relative {file : String} (h : IsRelativePath file) (source : String)
    (language : Language) :
    let path := relative source (generated file language) language
    resolve source path ++ leftOut language = generated file language ∧
    (Text.pieces '/' path).count ".." ≤ (Text.pieces '/' source).dropLast.length ∧
    ((∃ rest, path = "./" ++ rest) ∨ ∃ rest, path = "../" ++ rest) ∧
    ∀ other, IsRelativePath other → generated other language ≠ generated file language →
      relative source (generated other language) language ≠ path := by
  intro path
  obtain ⟨directory, stem, hdown, hpieces⟩ := h.exists_pieces_generated language
  refine ⟨h.resolve_append source language, count_up_le hpieces hdown, relative_starts _ _ _, ?_⟩
  intro other hother hne heq
  apply hne
  rw [← hother.resolve_append source language, heq]
  exact h.resolve_append source language

/-- Up from one directory and down into another, in both languages. -/
theorem resolve_relative_size :
    IsRelativePath "a/c/size.proto" ∧
    relative "a/b/hat.pb.ts" "a/c/size.pb.ts" .typeScript = "../c/size.pb" ∧
    resolve "a/b/hat.pb.ts" "../c/size.pb" ++ ".ts" = "a/c/size.pb.ts" ∧
    relative "a/b/hat.pb.js" "a/c/size.pb.js" .javaScript = "../c/size.pb.js" ∧
    resolve "a/b/hat.pb.js" "../c/size.pb.js" = "a/c/size.pb.js" := by
  have hpath : IsRelativePath "a/c/size.proto" := by
    simp only [IsRelativePath, LeadsDown]
    decide +kernel
  have hts : relative "a/b/hat.pb.ts" "a/c/size.pb.ts" .typeScript = "../c/size.pb" := by
    decide +kernel
  have hjs : relative "a/b/hat.pb.js" "a/c/size.pb.js" .javaScript = "../c/size.pb.js" := by
    decide +kernel
  have hgenerated : generated "a/c/size.proto" .typeScript = "a/c/size.pb.ts" ∧
      generated "a/c/size.proto" .javaScript = "a/c/size.pb.js" := by
    decide +kernel
  refine ⟨hpath, hts, ?_, hjs, ?_⟩
  · rw [← hts, ← hgenerated.1]
    exact (resolve_relative hpath "a/b/hat.pb.ts" .typeScript).1
  · rw [← hjs, ← hgenerated.2]
    exact String.append_empty.symm.trans (resolve_relative hpath "a/b/hat.pb.js" .javaScript).1

end ModulePath

end ProtoStub
