import Mathlib
import ProtoStub.Proofs.Characters
import ProtoStub.Proofs.ModuleNames
import ProtoStub.Proofs.TypeScopes

/-!
# Parameters of clients

The parameter of a client is called after the type of its input, with a small first letter. Inside
the client it stands before what the module calls so, and the client uses the names of its types and
of the functions that send requests. A parameter is kept from being called like a reserved word or
like the other variables of a client, and it cannot be called like those functions, which start with
capitals; but nothing keeps it from the name of a type that starts with a small letter. Which names
it hides is said once (`Hides`), and that these are the only ones that a client can lose is
`parameter_mem_stubNames_iff`.

That a small first letter is never a capital again is a fact about the table of lower case: the
lower-case letters of its runs miss the capitals of all of them (`misses_caseRuns`).
-/

namespace ProtoStub

/-! ## Lower case -/

namespace Text

/-- A character that has another lower case than itself. -/
def IsCapital (c : Char) : Prop := lowercase c ≠ [c]

instance (c : Char) : Decidable (IsCapital c) := inferInstanceAs (Decidable (lowercase c ≠ [c]))

namespace CaseRun

/-- The first lower-case letter of a run. -/
def low (r : CaseRun) : Nat := (r.first + r.shift).toNat

/-- The last lower-case letter of a run. -/
def high (r : CaseRun) : Nat := (r.last + r.shift).toNat

/-- The lower-case letters of a run are no capitals of another: they lie before or after those, or
in the gaps between them. -/
def misses (r s : CaseRun) : Bool :=
  Nat.blt r.high s.first || Nat.blt s.last r.low ||
    (s.step == 2 && (r.step == 2 || r.first == r.last) && (r.low + s.first) % 2 == 1)

theorem holds_iff {r : CaseRun} {n : Nat} :
    r.holds n = true ↔ (r.first ≤ n ∧ n ≤ r.last) ∧ (n - r.first) % r.step = 0 := by
  simp only [holds, Bool.and_eq_true, decide_eq_true_eq, beq_iff_eq]

theorem not_holds_of_misses {r s : CaseRun} (h : r.misses s = true)
    (hshift : 0 ≤ r.first + r.shift) {n : Nat} (hn : r.holds n = true) :
    s.holds (n + r.shift).toNat = false := by
  rw [Bool.eq_false_iff]
  intro hs
  rw [holds_iff] at hn hs
  simp only [misses, low, high, Bool.or_eq_true, Nat.blt_eq, Bool.and_eq_true, beq_iff_eq] at h
  rcases h with (h | h) | ⟨⟨hstep, hr⟩, hparity⟩
  · omega
  · omega
  · rw [hstep] at hs
    rcases hr with hr | hr
    · rw [hr] at hn
      omega
    · omega

end CaseRun

/-- The capital I with a dot above, as a run. -/
def dottedCapital : CaseRun := ⟨0x130, 0x130, 2, 0⟩

/-- No lower-case letter of a run is a capital. -/
theorem misses_caseRuns :
    (caseRuns.all fun r => (dottedCapital :: caseRuns).all r.misses) = true := by
  decide +kernel

/-- But for the letter k, the lower case of what is beyond ASCII is beyond ASCII. -/
theorem low_caseRuns : ∀ r ∈ caseRuns,
    0x80 ≤ r.first + r.shift ∨ r.last ≤ r.first ∧ r.first + r.shift = 107 := by
  decide +kernel

theorem lowercase_of_lt {c : Char} (h : c.toNat < 0x80) : lowercase c = [c.toLower] := by
  rw [lowercase, if_pos h]

theorem lowercase_toLower {c : Char} (h : c.toNat < 0x80) :
    lowercase c.toLower = [c.toLower] := by
  have hlower : c.toLower.toNat < 0x80 := by
    by_cases hupper : c.isUpper
    · have hletter : c.toLower.isLower := isLower_toLower hupper
      simp only [Char.isLower, Bool.and_eq_true, decide_eq_true_eq] at hletter
      have hz : c.toLower.toNat ≤ 122 := hletter.2
      omega
    · rwa [Char.toLower_eq_of_not_isUpper hupper]
  rw [lowercase_of_lt hlower, Char.toLower_toLower_eq_toLower]

theorem lowercase_ofNat {r : CaseRun} (hr : r ∈ caseRuns) {n : Nat} (hn : r.holds n = true) :
    lowercase (Char.ofNat (n + r.shift).toNat) = [Char.ofNat (n + r.shift).toNat] := by
  have hmisses := List.all_eq_true.1 misses_caseRuns r hr
  rw [List.all_eq_true, List.forall_mem_cons] at hmisses
  have hrange := (CaseRun.holds_iff.1 hn).1
  rcases low_caseRuns r hr with hfar | ⟨hlast, hletter⟩
  · have hshift : 0 ≤ r.first + r.shift := by omega
    have hdotted := CaseRun.not_holds_of_misses hmisses.1 hshift hn
    have hruns := fun s hs => CaseRun.not_holds_of_misses (hmisses.2 s hs) hshift hn
    generalize hm : (n + r.shift).toNat = m at hdotted hruns
    by_cases hvalid : m.isValidChar
    · have hcode : (Char.ofNat m).toNat = m := by rw [Char.toNat_ofNat, if_pos hvalid]
      have hne : m ≠ 0x130 := by
        rintro rfl
        exact absurd hdotted (by decide)
      have hnone : caseRuns.find? (·.holds m) = none := by
        rw [List.find?_eq_none]
        intro s hs
        rw [hruns s hs]
        exact Bool.false_ne_true
      rw [lowercase, hcode, if_neg (by omega), if_neg hne, hnone]
    -- a number that is no code point makes the first character
    · have hzero : Char.ofNat m = Char.ofNat 0 := by
        apply Char.toNat_inj.1
        rw [Char.toNat_ofNat, if_neg hvalid]
        rfl
      rw [hzero]
      rfl
  · have hcode : (n + r.shift).toNat = 107 := by omega
    rw [hcode]
    rfl

/-- Lower case starts with a character that is in lower case. -/
theorem not_isCapital_of_lowercase {c d : Char} {rest : List Char}
    (h : lowercase c = d :: rest) : ¬ IsCapital d := by
  rw [IsCapital, not_not]
  have hc := h
  rw [lowercase] at h
  split at h
  next hascii =>
    cases h
    exact lowercase_toLower hascii
  split at h
  · cases h
    rfl
  split at h
  next r hfind =>
    cases h
    have hholds := List.find?_some hfind
    exact lowercase_ofNat (List.mem_of_find?_eq_some hfind) hholds
  next =>
    cases h
    exact hc

theorem lowercase_ne_nil (c : Char) : lowercase c ≠ [] := by
  rw [lowercase]
  repeat' split
  all_goals exact List.cons_ne_nil _ _

/-- A text starts with a capital. -/
def StartsCapital (s : String) : Prop := ∃ c rest, s.toList = c :: rest ∧ IsCapital c

end Text

/-! ## What a parameter hides -/

namespace Script

/-- A text is a name with its first character in lower case. -/
def Lowered (name text : String) : Prop :=
  ∃ c rest, name.toList = c :: rest ∧ text.toList = Text.lowercase c ++ rest

/-- The parameter for a type with a name is called like something else: this is the name of the
type with a small first letter, or with an underscore after it too, which tells it from a name that
is reserved. -/
inductive Hides (name : String) : String → Prop
  | plain {text : String} : Lowered name text → text ∉ reservedNames → Hides name text
  | marked {text : String} : Lowered name text → text ∈ reservedNames → Hides name (text ++ "_")

theorem lowered_iff {name text : String} (hname : name ≠ "") :
    Lowered name text ↔ text = lowerFirst name := by
  cases hchars : name.toList with
  | nil => exact absurd (String.toList_eq_nil_iff.1 hchars) hname
  | cons c rest =>
    rw [lowerFirst, hchars, Lowered, hchars]
    simp only [List.cons.injEq]
    constructor
    · rintro ⟨_, _, ⟨rfl, rfl⟩, htext⟩
      rw [← htext, String.ofList_toList]
    · rintro rfl
      exact ⟨c, rest, ⟨rfl, rfl⟩, String.toList_ofList⟩

/-- What a parameter hides is what it is called. -/
theorem hides_iff {name other : String} (hname : name ≠ "") :
    Hides name other ↔
      (if lowerFirst name ∈ reservedNames then lowerFirst name ++ "_" else lowerFirst name) =
        other := by
  constructor
  · intro h
    cases h with
    | plain hlowered hfree =>
      rw [lowered_iff hname] at hlowered
      rw [if_neg (hlowered ▸ hfree), hlowered]
    | marked hlowered hreserved =>
      rw [lowered_iff hname] at hlowered
      rw [if_pos (hlowered ▸ hreserved), hlowered]
  · rintro rfl
    have hlowered : Lowered name (lowerFirst name) := (lowered_iff hname).2 rfl
    split
    next hreserved => exact .marked hlowered hreserved
    next hfree => exact .plain hlowered hfree

theorem Lowered.exists_small {name text : String} (h : Lowered name text) :
    ∃ d rest, text.toList = d :: rest ∧ ¬ Text.IsCapital d := by
  obtain ⟨c, rest, -, htext⟩ := h
  obtain ⟨d, more, hd⟩ := List.exists_cons_of_ne_nil (Text.lowercase_ne_nil c)
  rw [hd] at htext
  exact ⟨d, more ++ rest, htext, Text.not_isCapital_of_lowercase hd⟩

theorem Hides.not_startsCapital {name other : String} (h : Hides name other) :
    ¬ Text.StartsCapital other := by
  rintro ⟨c, tail, hother, hcapital⟩
  cases h with
  | plain hlowered =>
    obtain ⟨d, rest, htext, hsmall⟩ := hlowered.exists_small
    rw [hother] at htext
    cases htext
    exact hsmall hcapital
  | marked hlowered =>
    obtain ⟨d, rest, htext, hsmall⟩ := hlowered.exists_small
    rw [String.toList_append, htext] at hother
    cases hother
    exact hsmall hcapital

/-- No reserved name ends in an underscore. -/
theorem getLast?_reservedNames : ∀ name ∈ reservedNames, name.toList.getLast? ≠ some '_' := by
  decide +kernel

theorem Hides.not_mem_reservedNames {name other : String} (h : Hides name other) :
    other ∉ reservedNames := by
  cases h with
  | plain _ hfree => exact hfree
  | marked =>
    intro hmem
    apply getLast?_reservedNames _ hmem
    simp

/-- The parameter for a type hides the type's own name if that starts with a small letter and is
not reserved. -/
theorem hides_self_iff {name : String} (hname : name ≠ "") :
    Hides name name ↔ ¬ Text.StartsCapital name ∧ name ∉ reservedNames := by
  constructor
  · intro h
    exact ⟨h.not_startsCapital, h.not_mem_reservedNames⟩
  · rintro ⟨hsmall, hfree⟩
    obtain ⟨c, rest, hchars⟩ := List.exists_cons_of_ne_nil (mt String.toList_eq_nil_iff.1 hname)
    have hlower : Text.lowercase c = [c] := by
      by_contra hcapital
      exact hsmall ⟨c, rest, hchars, hcapital⟩
    exact .plain ⟨c, rest, hchars, by rw [hlower, hchars]; rfl⟩ hfree

/-- The parameter for a type is made of the last name on the path to its declaration. -/
theorem parameterName_eq_iff {place : Place} {other : String}
    (hnames : ∀ name ∈ place.names, name ≠ "" ∧ '.' ∉ name.toList) :
    parameterName place.path = other ↔ Hides place.name other := by
  have hpieces : Text.pieces '.' place.path = place.outer ++ [place.name] := by
    apply Text.pieces_intercalate_of_toList rfl (by simp)
    exact fun name hname => (hnames name hname).2
  have hne : place.name ≠ "" := (hnames place.name (by simp [Place.names])).1
  rw [hides_iff hne, parameterName, hpieces, List.getLast?_append_cons]
  rfl

end Script

/-! ## The types of methods -/

/-- The names that a file declares are not empty, and without dots. -/
def FileDescriptor.NamesPlain (file : FileDescriptor) : Prop :=
  ∀ p ∈ places file.enums file.messages, ∀ name ∈ p.names, name ≠ "" ∧ '.' ∉ name.toList

/-- The first part of the name by which a module knows a type: the name that is looked up. -/
def TypeRef.firstName (ref : TypeRef) : String :=
  ((Text.pieces '.' ref.localName).head?).getD ref.localName

theorem Scope.exists_of_resolve {scope : Scope} {name file : String} {ref : TypeRef}
    (h : scope.resolve name file = .ok ref) : ∃ d ∈ scope.declarations, ref = d.toRef := by
  obtain ⟨d, hfilter, href⟩ := Scope.filter_of_resolve h
  have hd : d ∈ [d] := List.mem_singleton_self d
  rw [← hfilter] at hd
  exact ⟨d, List.mem_of_mem_filter (List.mem_of_mem_filter hd), href⟩

theorem FileContext.resolve_enters_of_declarations {files : List FileDescriptor} {ctx : FileContext}
    {final : ImportTable} (h : ctx.scope.declarations = files.flatMap Declaration.ofFile)
    (name : String) : Build.Enters final (ctx.resolve name) (Known files final) := by
  intro s a s' hrun
  unfold FileContext.resolve at hrun
  obtain ⟨ref, s₁, href, hrun⟩ := Build.exists_of_bind hrun
  have hresolve := Build.eq_ok_of_lift href
  rw [hresolve] at href
  cases href
  cases hrun
  obtain ⟨d, hd, rfl⟩ := Scope.exists_of_resolve hresolve
  rw [h, ← map_sites] at hd
  obtain ⟨site, hsite, rfl⟩ := List.mem_map.1 hd
  rw [Site.toRef_declaration]
  refine ⟨s.extends_register _, fun hsound => hsound.register _, ?_⟩
  intro hfinal
  exact .intro (mem_sites.1 hsite) (hfinal.binds (s.binds_register _))

/-- Everything that a resolved file refers to is known to its imports, also if several files have
one name. -/
theorem FileTree.known_of_build {files : List FileDescriptor} {targets : List String}
    {language : Language} {trees : List FileTree}
    (hbuild : build files targets language = .ok trees) :
    ∀ tree ∈ trees, tree.imports.file = tree.name ∧ tree.imports.Sound ∧
      ∀ ref ∈ tree.references, Known files tree.imports ref := by
  obtain ⟨scope, hscope, hbuild⟩ := Except.exists_of_bind hbuild
  have hdeclarations : scope.declarations = files.flatMap Declaration.ofFile := by
    unfold Scope.ofFiles at hscope
    split at hscope
    · cases hscope
    · cases hscope
      rfl
  refine Except.forall_of_mapM ?_ hbuild
  intro target _ tree htree
  split at htree
  · cases htree
  next file hfile =>
    obtain ⟨hname, hsound, hextends, hknown⟩ := known_of_enters
      (fun hctx _ => FileContext.resolve_enters_of_declarations (hctx ▸ hdeclarations)) htree
    refine ⟨?_, hsound, hknown⟩
    rw [hextends.file, emptyImports_eq, hname]

theorem Known.exists_firstName {files : List FileDescriptor} {table : ImportTable} {ref : TypeRef}
    (h : Known files table ref) (hsound : table.Sound)
    (hnames : ∀ file ∈ files, file.NamesPlain) :
    ∃ site : Site, site.DeclaredIn files ∧ ref.file = site.file.fileName ∧
      ref.fqName = site.fqName ∧ ref.shortName = site.place.path ∧
      (∀ name ∈ site.place.names, name ≠ "" ∧ '.' ∉ name.toList) ∧
      (ref.file = table.file → site.place.names.head? = some ref.firstName) := by
  cases h with | @intro site root hdeclared hbinds => ?_
  have hplain := hnames _ (List.mem_of_getElem? hdeclared.1) _ (mem_places.2 hdeclared.2)
  refine ⟨site, hdeclared, rfl, rfl, rfl, hplain, ?_⟩
  intro hfile
  obtain ⟨first, rest, hcons⟩ := site.place.exists_names_eq_cons
  have hparts := hplain
  rw [hcons, List.forall_mem_cons] at hparts
  obtain ⟨hroot, hlocal⟩ := site.localName_bindRoot hcons hparts.1.2 root
  have hpieces : Text.pieces '.' (site.toRef.bindRoot root).localName = root :: rest := by
    rw [hlocal]
    apply Text.pieces_intercalate_of_toList rfl (List.cons_ne_nil _ _)
    rw [List.forall_mem_cons]
    exact ⟨hsound.dotFree_of_binds hbinds, fun name hname => (hparts.2 name hname).2⟩
  rw [TypeRef.firstName, hpieces, hcons]
  cases hbinds with
  | own => rw [hroot]; rfl
  | imported hforeign => exact absurd hfile hforeign

namespace Script

/-- The names that the clients of a method use: those by which its types are looked up, the
functions that send a request, and what else they bind. -/
def stubNames (method : MethodDecl) : List String :=
  [method.input.firstName, method.output.firstName, RuntimeName.binaryRequest.text,
    RuntimeName.jsonRequest.text, "config", "response"]

theorem RuntimeName.startsCapital_request :
    Text.StartsCapital binaryRequest.text ∧ Text.StartsCapital jsonRequest.text :=
  ⟨⟨'P', _, rfl, by decide⟩, ⟨'J', _, rfl, by decide⟩⟩

/-- Of the names that clients use, a parameter can only hide those of types. -/
theorem exists_hides_iff {name : String} {method : MethodDecl} :
    (∃ other ∈ stubNames method, Hides name other) ↔
      ∃ ref ∈ [method.input, method.output], Hides name ref.firstName := by
  have hrequest : ¬ Hides name RuntimeName.binaryRequest.text ∧
      ¬ Hides name RuntimeName.jsonRequest.text :=
    ⟨fun h => h.not_startsCapital RuntimeName.startsCapital_request.1,
      fun h => h.not_startsCapital RuntimeName.startsCapital_request.2⟩
  have hlocal : ¬ Hides name "config" ∧ ¬ Hides name "response" :=
    ⟨fun h => h.not_mem_reservedNames (by decide), fun h => h.not_mem_reservedNames (by decide)⟩
  simp [stubNames, hrequest, hlocal]

/-- The parameter of a client is called like a name that the client uses just if it is called like
the first part of the name of one of its types, which cannot be if both start with capitals. For an
input that the file itself declares at its top, this means that its name starts with a small letter
and is not reserved. -/
theorem parameter_mem_stubNames_iff {files : List FileDescriptor} {targets : List String}
    {language : Language} {trees : List FileTree} {tree : FileTree} {service : ServiceDecl}
    {method : MethodDecl} (hnames : ∀ file ∈ files, file.NamesPlain)
    (hbuild : FileTree.build files targets language = .ok trees) (htree : tree ∈ trees)
    (hservice : service ∈ tree.services) (hmethod : method ∈ service.methods) :
    ∃ input : Site, input.DeclaredIn files ∧ method.input.file = input.file.fileName ∧
      method.input.fqName = input.fqName ∧
      (parameterName method.input.shortName ∈ stubNames method ↔
        ∃ ref ∈ [method.input, method.output], Hides input.place.name ref.firstName) ∧
      ((∀ ref ∈ [method.input, method.output], Text.StartsCapital ref.firstName) →
        parameterName method.input.shortName ∉ stubNames method) ∧
      (input.place.outer = [] → method.input.file = tree.name →
        (parameterName method.input.shortName = method.input.firstName ↔
          ¬ Text.StartsCapital input.place.name ∧ input.place.name ∉ reservedNames)) := by
  obtain ⟨hown, hsound, hknown⟩ := FileTree.known_of_build hbuild tree htree
  have href : method.input ∈ tree.references := by
    apply List.mem_append_right
    apply List.mem_flatMap_of_mem hservice
    exact List.mem_flatMap_of_mem hmethod List.mem_cons_self
  obtain ⟨input, hdeclared, hfile, hfqName, hshort, hplain, hfirst⟩ :=
    (hknown _ href).exists_firstName hsound hnames
  have hcalled : ∀ other, parameterName method.input.shortName = other ↔
      Hides input.place.name other := by
    intro other
    rw [hshort, parameterName_eq_iff hplain]
  have hmem : parameterName method.input.shortName ∈ stubNames method ↔
      ∃ ref ∈ [method.input, method.output], Hides input.place.name ref.firstName := by
    rw [← exists_hides_iff]
    simp only [← hcalled, exists_eq_right']
  refine ⟨input, hdeclared, hfile, hfqName, hmem, ?_, ?_⟩
  · intro hcapital hhidden
    obtain ⟨ref, href, hhides⟩ := hmem.1 hhidden
    exact hhides.not_startsCapital (hcapital ref href)
  · intro houter hsame
    have hhead := hfirst (hsame.trans hown.symm)
    rw [Place.names, houter] at hhead
    have hname : input.place.name = method.input.firstName := Option.some.inj hhead
    have hne : input.place.name ≠ "" := (hplain _ (by simp [Place.names])).1
    rw [hcalled, ← hname, hides_self_iff hne]

/-- Hats that come in sizes, and sizes of their own with a small name. -/
def hats : List FileDescriptor :=
  [{ name := some "hat.proto", package := "hat", dialect := "proto3"
     messages := [{ name := "size" }, { name := "Hat", nested := [{ name := "Size" }] }]
     services := [
       { name := "Hats"
         methods := [
           { name := "Fit", inputType := ".hat.size", outputType := ".hat.Hat" },
           { name := "Measure", inputType := ".hat.Hat.Size", outputType := ".hat.Hat" }] }] }]

theorem namesPlain_hats : ∀ file ∈ hats, file.NamesPlain := by
  unfold FileDescriptor.NamesPlain
  decide +kernel

/-- The methods of the hats, with their parameters and the first parts of the names of their
types. -/
theorem exists_methods_hats :
    ∃ tree service fit measure, FileTree.build hats ["hat.proto"] .javaScript = .ok [tree] ∧
      tree.services = [service] ∧ service.methods = [fit, measure] ∧
      [fit, measure].map (fun m =>
        [parameterName m.input.shortName, m.input.firstName, m.output.firstName]) =
          [["size", "size", "Hat"], ["size", "Hat", "Hat"]] := by
  have hparts : (FileTree.build hats ["hat.proto"] .javaScript).map
      (List.map fun tree => tree.services.map fun service => service.methods.map fun m =>
        [parameterName m.input.shortName, m.input.firstName, m.output.firstName]) =
          .ok [[[["size", "size", "Hat"], ["size", "Hat", "Hat"]]]] := by
    cbv
  obtain ⟨tree, hbuild, htree⟩ := FileTree.exists_of_map_build hparts
  obtain ⟨service, hservice, hmethods⟩ := List.map_eq_singleton_iff.1 htree
  obtain ⟨fit, rest, hcons, -, hrest⟩ := List.map_eq_cons_iff.1 hmethods
  obtain ⟨measure, rfl, -⟩ := List.map_eq_singleton_iff.1 hrest
  exact ⟨tree, service, fit, measure, hbuild, hservice, hcons, hcons ▸ hmethods⟩

/-- The parameter that is called after a size of a hat hides nothing. -/
theorem parameter_mem_stubNames_iff_hats :
    (∀ file ∈ hats, file.NamesPlain) ∧
    ∃ tree, FileTree.build hats ["hat.proto"] .javaScript = .ok [tree] ∧
      ∃ service ∈ tree.services, ∃ method ∈ service.methods,
        parameterName method.input.shortName = "size" ∧ method.input.firstName = "Hat" ∧
        parameterName method.input.shortName ∉ stubNames method := by
  obtain ⟨tree, service, fit, measure, hbuild, hservices, hmethods, hparts⟩ := exists_methods_hats
  have hservice : service ∈ tree.services := hservices ▸ List.mem_singleton_self service
  have hmethod : measure ∈ service.methods := hmethods ▸ List.mem_cons_of_mem _ List.mem_cons_self
  simp only [List.map_cons, List.map_nil, List.cons.injEq, and_true] at hparts
  obtain ⟨-, hparameter, hinput, houtput⟩ := hparts
  refine ⟨namesPlain_hats, tree, hbuild, service, hservice, measure, hmethod, hparameter, hinput,
    ?_⟩
  obtain ⟨-, -, -, -, -, hcapital, -⟩ := parameter_mem_stubNames_iff namesPlain_hats hbuild
    List.mem_cons_self hservice hmethod
  apply hcapital
  have hhat : Text.StartsCapital "Hat" := ⟨'H', _, rfl, by decide⟩
  intro ref href
  rcases List.mem_pair.1 href with rfl | rfl
  · rwa [hinput]
  · rwa [houtput]

/-- The parameter that is called after a size hides the size. -/
theorem parameter_eq_firstName_hats :
    (∀ file ∈ hats, file.NamesPlain) ∧
    ∃ tree, FileTree.build hats ["hat.proto"] .javaScript = .ok [tree] ∧
      ∃ service ∈ tree.services, ∃ method ∈ service.methods,
        parameterName method.input.shortName = "size" ∧ method.input.firstName = "size" ∧
        parameterName method.input.shortName ∈ stubNames method := by
  obtain ⟨tree, service, fit, measure, hbuild, hservices, hmethods, hparts⟩ := exists_methods_hats
  have hservice : service ∈ tree.services := hservices ▸ List.mem_singleton_self service
  have hmethod : fit ∈ service.methods := hmethods ▸ List.mem_cons_self
  simp only [List.map_cons, List.map_nil, List.cons.injEq, and_true] at hparts
  obtain ⟨⟨hparameter, hinput, -⟩, -⟩ := hparts
  refine ⟨namesPlain_hats, tree, hbuild, service, hservice, fit, hmethod, hparameter, hinput, ?_⟩
  rw [hparameter, ← hinput]
  exact List.mem_cons_self

end Script

end ProtoStub
