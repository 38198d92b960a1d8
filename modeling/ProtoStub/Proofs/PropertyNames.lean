import Mathlib
import ProtoStub.Proofs.Conformance
import ProtoStub.Proofs.DeclaredTypes
import ProtoStub.Proofs.JsonKeys

/-!
# Names of properties

The property of a field is its name in camel case, and whatever reads or writes messages takes two
fields with one property for the same. In general different names can become one property: `take_2`
and `take2` do, and so do `song__title` and `song_title`. Names in snake case (`IsSnakeCase`), in
which a letter stands behind every underscore, cannot: the capitals of the property show where the
underscores were, and `snakeCase` puts them back.

The argument is about the loop that drops underscores. Its flag says whether an underscore was just
dropped, and `pending` is the part of the name that its result still has to tell: what lies ahead,
behind that underscore.
-/

namespace ProtoStub

namespace Text

/-! ## Snake case -/

/-- A character of a name in snake case: a small letter, a digit or an underscore. -/
def IsSnake (c : Char) : Prop := c.isLower = true ∨ c.isDigit = true ∨ c = '_'

instance : DecidablePred IsSnake := fun c =>
  inferInstanceAs (Decidable (c.isLower = true ∨ c.isDigit = true ∨ c = '_'))

/-- A text starts with a small letter. -/
def StartsSmall (cs : List Char) : Prop := cs.head?.any Char.isLower = true

instance : DecidablePred StartsSmall := fun cs =>
  inferInstanceAs (Decidable (cs.head?.any Char.isLower = true))

/-- A small letter stands right behind every underscore. -/
def MarksLetters (cs : List Char) : Prop :=
  ∀ i, cs[i]? = some '_' → cs[i + 1]?.any Char.isLower = true

/-- A name in snake case. -/
structure IsSnakeCase (name : String) : Prop where
  chars : All IsSnake name
  start : StartsSmall name.toList
  marks : MarksLetters name.toList

/-- What stands for a character in snake case: an underscore and a small letter for a capital. -/
def lowered (c : Char) : List Char := if c.isUpper then ['_', c.toLower] else [c]

/-- A name with an underscore and a small letter in the place of each capital. -/
def snakeCase (name : String) : String := String.ofList (name.toList.flatMap lowered)

@[simp] theorem startsSmall_cons {c : Char} {cs : List Char} :
    StartsSmall (c :: cs) ↔ c.isLower = true := Iff.rfl

@[simp] theorem marksLetters_nil : MarksLetters [] := by
  intro i hi
  cases hi

@[simp] theorem marksLetters_cons {c : Char} {cs : List Char} :
    MarksLetters (c :: cs) ↔ (c = '_' → StartsSmall cs) ∧ MarksLetters cs := by
  rw [MarksLetters, ← Nat.and_forall_add_one]
  simp [MarksLetters, StartsSmall, List.head?_eq_getElem?]

instance decidableMarksLetters : DecidablePred MarksLetters
  | [] => .isTrue marksLetters_nil
  | _ :: cs =>
    have := decidableMarksLetters cs
    decidable_of_iff _ marksLetters_cons.symm

theorem isSnakeCase_iff {name : String} : IsSnakeCase name ↔
    All IsSnake name ∧ StartsSmall name.toList ∧ MarksLetters name.toList :=
  ⟨fun h => ⟨h.chars, h.start, h.marks⟩, fun h => ⟨h.1, h.2.1, h.2.2⟩⟩

instance : DecidablePred IsSnakeCase := fun _ => decidable_of_iff _ isSnakeCase_iff.symm

/-! ## Single characters -/

theorem ne_underscore_of_isLower {c : Char} (h : c.isLower = true) : c ≠ '_' := by
  rintro rfl
  exact absurd h (by decide)

theorem toUpper_ne_underscore {c : Char} (h : c ≠ '_') : c.toUpper ≠ '_' := by
  by_cases hlower : c.isLower = true
  · intro heq
    have hupper := isUpper_toUpper hlower
    rw [heq] at hupper
    exact absurd hupper (by decide)
  · rwa [Char.toUpper_eq_of_not_isLower hlower]

theorem not_isUpper_of_isDigit {c : Char} (h : c.isDigit = true) : ¬c.isUpper = true := by
  simp only [Char.isDigit, Char.isUpper, Bool.and_eq_true, decide_eq_true_eq, ge_iff_le,
    UInt32.le_iff_toNat_le] at h ⊢
  have hnine : '9'.val.toNat = 57 := rfl
  have hA : 'A'.val.toNat = 65 := rfl
  omega

theorem lowered_of_isSnake {c : Char} (h : IsSnake c) : lowered c = [c] := by
  refine if_neg ?_
  rcases h with hlower | hdigit | rfl
  · exact Char.not_isUpper_of_isLower hlower
  · exact not_isUpper_of_isDigit hdigit
  · decide

/-- A letter that was made a capital is found again. -/
theorem lowered_toUpper {c : Char} (h : c.isLower = true) : lowered c.toUpper = ['_', c] := by
  rw [lowered, if_pos (isUpper_toUpper h), Char.toLower_toUpper_eq_toLower,
    Char.toLower_eq_of_not_isUpper (Char.not_isUpper_of_isLower h)]

/-! ## The loop -/

/-- What the result of the loop still has to tell: the characters ahead, behind the underscore that
was just dropped. -/
def pending (raise : Bool) (cs : List Char) : List Char := if raise then '_' :: cs else cs

theorem pending_append (raise : Bool) (cs ds : List Char) :
    pending raise cs ++ ds = pending raise (cs ++ ds) := by
  cases raise <;> rfl

theorem marksLetters_pending {raise : Bool} {cs : List Char} :
    MarksLetters (pending raise cs) ↔ (raise = true → StartsSmall cs) ∧ MarksLetters cs := by
  cases raise <;> simp [pending]

/-- The character that a step of the loop gives tells the one that it took and the underscore
before it. -/
theorem lowered_raised {raise : Bool} {c : Char} (hsnake : IsSnake c)
    (hletter : raise = true → c.isLower = true) :
    lowered (if raise then c.toUpper else c) = pending raise [c] := by
  cases raise with
  | false => exact lowered_of_isSnake hsnake
  | true => exact lowered_toUpper (hletter rfl)

theorem flatMap_lowered_camelFrom {raise : Bool} {cs : List Char} (hchars : ∀ c ∈ cs, IsSnake c)
    (hmarks : MarksLetters (pending raise cs)) :
    (camelFrom raise cs).flatMap lowered = pending raise cs := by
  fun_induction camelFrom raise cs with
  | case1 raise =>
    cases raise with
    | false => rfl
    | true => cases (marksLetters_pending.1 hmarks).1 rfl
  | case2 raise cs ih =>
    cases raise with
    | false => exact ih (List.forall_mem_cons.1 hchars).2 hmarks
    | true =>
      -- No letter stands behind the first of two underscores.
      cases (marksLetters_pending.1 hmarks).1 rfl
  | case3 raise c cs hc ih =>
    obtain ⟨hsnake, hchars⟩ := List.forall_mem_cons.1 hchars
    obtain ⟨hletter, hmarks⟩ := marksLetters_pending.1 hmarks
    have hrest : (camelFrom false cs).flatMap lowered = cs :=
      ih hchars (marksLetters_cons.1 hmarks).2
    rw [List.flatMap_cons, lowered_raised hsnake hletter, hrest, pending_append,
      List.singleton_append]

theorem underscore_not_mem_camelFrom (raise : Bool) (cs : List Char) :
    '_' ∉ camelFrom raise cs := by
  fun_induction camelFrom raise cs with
  | case1 => exact List.not_mem_nil
  | case2 raise cs ih => exact ih
  | case3 raise c cs hc ih =>
    rw [List.mem_cons, not_or]
    refine ⟨?_, ih⟩
    split
    · exact (toUpper_ne_underscore hc).symm
    · exact Ne.symm hc

theorem camelFrom_eq_self {cs : List Char} (h : '_' ∉ cs) : camelFrom false cs = cs := by
  induction cs with
  | nil => rfl
  | cons c cs ih =>
    obtain ⟨hc, hcs⟩ := List.ne_and_not_mem_of_not_mem_cons h
    rw [camelFrom, if_neg hc.symm, ih hcs]
    rfl

/-- Without underscores, the loop takes back what `lowered` did. -/
theorem camelFrom_flatMap_lowered {cs : List Char} (h : '_' ∉ cs) :
    camelFrom false (cs.flatMap lowered) = cs := by
  induction cs with
  | nil => rfl
  | cons c cs ih =>
    obtain ⟨hc, hcs⟩ := List.ne_and_not_mem_of_not_mem_cons h
    rw [List.flatMap_cons, lowered]
    by_cases hupper : c.isUpper = true
    · have hne := ne_underscore_of_isLower (isLower_toLower hupper)
      have hback : c.toLower.toUpper = c := by
        rw [Char.toUpper_toLower_eq_toUpper,
          Char.toUpper_eq_of_not_isLower (Char.not_isLower_of_isUpper hupper)]
      simp only [if_pos hupper, List.cons_append, List.nil_append, camelFrom, if_neg hne, hback,
        ih hcs, if_true]
    · simp only [if_neg hupper, List.cons_append, List.nil_append, camelFrom, if_neg hc.symm,
        ih hcs, Bool.false_eq_true, if_false]

theorem marksLetters_flatMap_lowered {cs : List Char} (h : '_' ∉ cs) :
    MarksLetters (cs.flatMap lowered) := by
  induction cs with
  | nil => exact marksLetters_nil
  | cons c cs ih =>
    obtain ⟨hc, hcs⟩ := List.ne_and_not_mem_of_not_mem_cons h
    rw [List.flatMap_cons, lowered]
    by_cases hupper : c.isUpper = true
    · have hlower := isLower_toLower hupper
      rw [if_pos hupper, List.cons_append, List.cons_append, List.nil_append, marksLetters_cons,
        marksLetters_cons, startsSmall_cons]
      exact ⟨fun _ => hlower, fun heq => absurd heq (ne_underscore_of_isLower hlower), ih hcs⟩
    · rw [if_neg hupper, List.cons_append, List.nil_append, marksLetters_cons]
      exact ⟨fun heq => absurd heq.symm hc, ih hcs⟩

/-! ## Names -/

theorem underscore_not_mem_camelCase (name : String) : '_' ∉ (camelCase name).toList := by
  rw [camelCase, String.toList_ofList]
  exact underscore_not_mem_camelFrom false name.toList

/-- Nothing is left to do for a name in camel case. -/
theorem camelCase_camelCase (name : String) : camelCase (camelCase name) = camelCase name := by
  rw [camelCase, camelFrom_eq_self (underscore_not_mem_camelCase name), String.ofList_toList]

theorem snakeCase_camelCase {name : String} (h : IsSnakeCase name) :
    snakeCase (camelCase name) = name := by
  have hback : (camelFrom false name.toList).flatMap lowered = name.toList :=
    flatMap_lowered_camelFrom h.chars h.marks
  rw [snakeCase, camelCase, String.toList_ofList, hback, String.ofList_toList]

theorem camelCase_snakeCase {name : String} (h : '_' ∉ name.toList) :
    camelCase (snakeCase name) = name := by
  rw [camelCase, snakeCase, String.toList_ofList, camelFrom_flatMap_lowered h, String.ofList_toList]

theorem camelCase_inj {name other : String} (hname : IsSnakeCase name) (hother : IsSnakeCase other)
    (h : camelCase name = camelCase other) : name = other := by
  rw [← snakeCase_camelCase hname, h, snakeCase_camelCase hother]

theorem nodup_map_camelCase {names : List String} (h : names.Nodup)
    (hsnake : ∀ name ∈ names, IsSnakeCase name) : (names.map camelCase).Nodup :=
  h.map_on fun name hname other hother => camelCase_inj (hsnake name hname) (hsnake other hother)

/-- The snake-case form has only characters of snake case if capitals are all that the name has
besides. -/
theorem all_snakeCase {name : String} (h : All (fun c => c.isUpper = true ∨ IsSnake c) name) :
    All IsSnake (snakeCase name) := by
  rw [snakeCase, all_ofList]
  intro d hd
  obtain ⟨c, hc, hd⟩ := List.mem_flatMap.1 hd
  rcases h c hc with hupper | hsnake
  · rw [lowered, if_pos hupper, List.mem_pair] at hd
    rcases hd with rfl | rfl
    · exact .inr (.inr rfl)
    · exact .inl (isLower_toLower hupper)
  · rw [lowered_of_isSnake hsnake, List.mem_singleton] at hd
    exact hd ▸ hsnake

theorem startsSmall_snakeCase_camelCase {name : String} (h : StartsSmall name.toList) :
    StartsSmall (snakeCase (camelCase name)).toList := by
  rw [snakeCase, camelCase, String.toList_ofList, String.toList_ofList]
  cases hcs : name.toList with
  | nil =>
    rw [hcs] at h
    cases h
  | cons c cs =>
    rw [hcs, startsSmall_cons] at h
    have hfirst : lowered (if false then c.toUpper else c) = [c] := lowered_of_isSnake (.inl h)
    rw [camelFrom, if_neg (ne_underscore_of_isLower h), List.flatMap_cons, hfirst]
    exact h

/-- Whatever the underscores of a name are, some name in snake case has its property. -/
theorem isSnakeCase_snakeCase_camelCase {name : String} (hchars : All IsSnake name)
    (hstart : StartsSmall name.toList) : IsSnakeCase (snakeCase (camelCase name)) where
  chars := all_snakeCase (all_camelCase (fun _ => .inl) fun c hc => .inr (hchars c hc))
  start := startsSmall_snakeCase_camelCase hstart
  marks := by
    rw [snakeCase, String.toList_ofList]
    exact marksLetters_flatMap_lowered (underscore_not_mem_camelCase name)

end Text

/-! ## Fields of messages -/

open Text (All IsSnake IsSnakeCase StartsSmall camelCase snakeCase)

/-- The fields of a resolved message have the names of those that it is made of, in their order. -/
theorem FileContext.MadeOf.protoNames_eq {ctx : FileContext} {namePath : String}
    {m : MessageDescriptor} {decl : MessageDecl} {enums messages : List Decl}
    (h : ctx.MadeOf namePath m decl enums messages) :
    decl.fields.map (·.info.protoName) = m.fields.map (·.name) := by
  rw [eq_comm, ← List.forall₂_eq_eq_eq, List.forall₂_map_left_iff, List.forall₂_map_right_iff]
  refine h.fields.imp fun f field hgives => ?_
  obtain ⟨comment, before, after, hrun⟩ := hgives
  exact (Script.names_of_field hrun).1.symm

theorem MessageDecl.Formed.properties_eq {decl : MessageDecl} (h : decl.Formed) :
    decl.fields.map (·.info.name) = (decl.fields.map (·.info.protoName)).map camelCase := by
  rw [List.map_map]
  exact List.map_congr_left fun field hfield => (h.fields field hfield).named.name

/-- The fields of every message of resolved files are those of a message that its file declares,
with their names in camel case as properties. -/
theorem FileTree.exists_declared_of_build {files : List FileDescriptor} {targets : List String}
    {language : Language} {trees : List FileTree}
    (h : FileTree.build files targets language = .ok trees) :
    ∀ tree ∈ trees, ∀ d ∈ tree.walk, ∀ decl, d.asMessage = some decl →
      ∃ file ∈ files, file.fileName = tree.name ∧ ∃ top ∈ file.messages, ∃ part,
        top.Contains file.namePath decl.fqName part ∧
        decl.fields.map (·.info.protoName) = part.fields.map (·.name) ∧
        decl.fields.map (·.info.name) = (part.fields.map (·.name)).map camelCase := by
  intro tree htree d hd decl hdecl
  have hformed := formed_of_walk h tree htree d hd decl hdecl
  obtain ⟨file, hfile, hname, top, htop, ctx, partPath, part, enums, messages, hpart, hmade⟩ :=
    exists_madeOf_of_build h tree htree d hd decl hdecl
  have hprotoNames := hmade.protoNames_eq
  refine ⟨file, hfile, hname, top, htop, part, hpart, hprotoNames, ?_⟩
  rw [hformed.properties_eq, hprotoNames]

/-- Names in snake case stay apart in camel case, and each is found again by putting an underscore
and a small letter in the place of each capital. What is in camel case stays as it is. The rule on
underscores is needed: a name of the same characters that breaks it becomes the same property as
one that keeps it. Fields of a message with distinct names in snake case have distinct
properties. -/
theorem camelCase_laws (name other : String) :
    (IsSnakeCase name → IsSnakeCase other → camelCase name = camelCase other → name = other) ∧
    (IsSnakeCase name → snakeCase (camelCase name) = name) ∧
    camelCase (camelCase name) = camelCase name ∧
    (All IsSnake name → StartsSmall name.toList → ¬IsSnakeCase name →
      ∃ twin, IsSnakeCase twin ∧ twin ≠ name ∧ camelCase twin = camelCase name) ∧
    ∀ files targets language trees, FileTree.build files targets language = .ok trees →
      ∀ tree ∈ trees, ∀ d ∈ tree.walk, ∀ decl, d.asMessage = some decl →
        ∃ file ∈ files, file.fileName = tree.name ∧ ∃ top ∈ file.messages, ∃ part,
          top.Contains file.namePath decl.fqName part ∧
          decl.fields.map (·.info.protoName) = part.fields.map (·.name) ∧
          decl.fields.map (·.info.name) = (part.fields.map (·.name)).map camelCase ∧
          ((part.fields.map (·.name)).Nodup → (∀ f ∈ part.fields, IsSnakeCase f.name) →
            decl.DistinctProperties) := by
  refine ⟨Text.camelCase_inj, Text.snakeCase_camelCase, Text.camelCase_camelCase name, ?_, ?_⟩
  · intro hchars hstart hnot
    have hsnake := Text.isSnakeCase_snakeCase_camelCase hchars hstart
    refine ⟨snakeCase (camelCase name), hsnake, fun heq => hnot (heq ▸ hsnake), ?_⟩
    exact Text.camelCase_snakeCase (Text.underscore_not_mem_camelCase name)
  · intro files targets language trees hbuild tree htree d hd decl hdecl
    obtain ⟨file, hfile, hname, top, htop, part, hpart, hprotoNames, hproperties⟩ :=
      FileTree.exists_declared_of_build hbuild tree htree d hd decl hdecl
    refine ⟨file, hfile, hname, top, htop, part, hpart, hprotoNames, hproperties, ?_⟩
    intro hdistinct hsnake
    rw [MessageDecl.DistinctProperties, hproperties]
    exact Text.nodup_map_camelCase hdistinct (List.forall_mem_map.2 hsnake)

/-- A file with names that differ in an underscore only. -/
def songFile : FileDescriptor :=
  { name := some "song.proto"
    dialect := "proto3"
    messages := [
      { name := "Song"
        fields := [
          { name := "song_title", number := 1, type := .string },
          { name := "songtitle", number := 2, type := .string },
          { name := "take2_length", number := 3, type := .int32 }]
        nested := [
          { name := "Verse"
            fields := [
              { name := "a_b_c", number := 1, type := .bool },
              { name := "a_bc", number := 2, type := .bool },
              { name := "ab_c", number := 3, type := .bool }] }] }] }

/-- The names and the properties of the fields of a file. -/
def FileTree.fieldNames (tree : FileTree) : List (List (String × String)) :=
  (tree.walk.filterMap Decl.asMessage).map fun decl =>
    decl.fields.map fun field => (field.info.protoName, field.info.name)

theorem camelCase_laws_song :
    IsSnakeCase "song_title" ∧ IsSnakeCase "songtitle" ∧
      camelCase "song_title" ≠ camelCase "songtitle" ∧
      snakeCase (camelCase "song_title") = "song_title" ∧
      ¬IsSnakeCase "take_2" ∧
      (∃ twin, IsSnakeCase twin ∧ twin ≠ "take_2" ∧ camelCase twin = camelCase "take_2") ∧
      ∃ tree, FileTree.build [songFile] ["song.proto"] .typeScript = .ok [tree] ∧
        tree.fieldNames =
          [[("song_title", "songTitle"), ("songtitle", "songtitle"),
              ("take2_length", "take2Length")],
            [("a_b_c", "aBC"), ("a_bc", "aBc"), ("ab_c", "abC")]] ∧
        ∀ decl ∈ tree.walk.filterMap Decl.asMessage, decl.DistinctProperties := by
  have htitle : IsSnakeCase "song_title" := by decide +kernel
  have hjoined : IsSnakeCase "songtitle" := by decide +kernel
  have htake : ¬IsSnakeCase "take_2" := by decide +kernel
  obtain ⟨hinj, hback, -, -, hmessages⟩ := camelCase_laws "song_title" "songtitle"
  obtain ⟨-, -, -, htwin, -⟩ := camelCase_laws "take_2" "take2"
  have hfieldNames : (FileTree.build [songFile] ["song.proto"] .typeScript).map
      (List.map FileTree.fieldNames) = .ok
        [[[("song_title", "songTitle"), ("songtitle", "songtitle"),
            ("take2_length", "take2Length")],
          [("a_b_c", "aBC"), ("a_bc", "aBc"), ("ab_c", "abC")]]] := by
    cbv
  obtain ⟨tree, hbuild, hnames⟩ := FileTree.exists_of_map_build hfieldNames
  have hsnake : ∀ names ∈ tree.fieldNames, (names.map Prod.fst).Nodup ∧
      ∀ name ∈ names.map Prod.fst, IsSnakeCase name := by
    rw [hnames]
    decide +kernel
  refine ⟨htitle, hjoined, fun heq => absurd (hinj htitle hjoined heq) (by decide), hback htitle,
    htake, htwin (by decide +kernel) (by decide +kernel) htake, tree, hbuild, hnames, ?_⟩
  intro decl hdecl
  obtain ⟨hdistinct, hforms⟩ := hsnake _ (List.mem_map_of_mem hdecl)
  obtain ⟨d, hd, hasMessage⟩ := List.mem_filterMap.1 hdecl
  obtain ⟨-, -, -, -, -, part, -, hprotoNames, -, hproperties⟩ :=
    hmessages _ _ _ _ hbuild tree List.mem_cons_self d hd decl hasMessage
  rw [List.map_map] at hdistinct hforms
  exact hproperties (hprotoNames ▸ hdistinct) (List.forall_mem_map.1 (hprotoNames ▸ hforms))

end ProtoStub
