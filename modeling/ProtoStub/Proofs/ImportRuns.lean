import ProtoStub.Proofs.ModuleNames

/-!
# Runs of registrations

A table of imports is made by reserving names and then registering types, one after the other. All
that such a run returns hangs on three things: the reserved names, and of every call for a type of
another file its path and identifier, which together are the import, and the name that it returned.

Two views of the run agree. What the table holds in the end are the calls for other files, no more
and no less (`find?_registerAll_iff`), so that its invariants speak of the names that were returned.
And a new import takes its own name, or the first free one of an endless row of candidates: the
search for it is stated without a bound (`Search`), and the bound of the definition is never felt
(`search_freeName`).
-/

namespace ProtoStub.ImportTable

/-! ## Calls -/

/-- A table in which names are reserved and nothing is imported. -/
def reserving (file : String) (language : Language) (names : List String) : ImportTable :=
  names.foldl reserve { file := file, language := language }

/-- The calls that register types one after the other, with the names that they return. -/
def calls (table : ImportTable) : List TypeRef → List (TypeRef × String)
  | [] => []
  | ref :: refs => (ref, (table.register ref).1) :: calls (table.register ref).2 refs

/-- One of the calls imports an identifier from a path under a name. -/
def Imports (table : ImportTable) (refs : List TypeRef) (path identifier name : String) : Prop :=
  ∃ call ∈ table.calls refs, call.1.file ≠ table.file ∧ table.pathTo call.1 = path ∧
    call.1.root = identifier ∧ call.2 = name

/-- A name that is reserved, or that one of the calls imports something under. -/
def IsTaken (table : ImportTable) (refs : List TypeRef) (name : String) : Prop :=
  name ∈ table.reserved ∨ ∃ path identifier, table.Imports refs path identifier name

theorem reserving_eq (file : String) (language : Language) (names : List String) :
    reserving file language names =
      { file := file, language := language, reserved := names.reverse } := by
  rw [reserving, foldl_reserve, List.append_nil]

section

variable (file : String) (language : Language) (names : List String)

@[simp] theorem file_reserving : (reserving file language names).file = file := by
  rw [reserving_eq]

@[simp] theorem mem_reserved_reserving {name : String} :
    name ∈ (reserving file language names).reserved ↔ name ∈ names := by
  rw [reserving_eq]
  exact List.mem_reverse

theorem find?_reserving (path identifier : String) :
    (reserving file language names).find? path identifier = none := by
  rw [reserving_eq]
  rfl

theorem sound_reserving : (reserving file language names).Sound := by
  have hnone := find?_reserving file language names
  refine ⟨?_, ?_, ?_⟩
  all_goals
    intros
    simp_all

theorem tidy_reserving : (reserving file language names).Tidy := by
  rw [reserving_eq]
  exact ⟨KeyMap.sorted_nil, by simp, by rintro _ _ _ ⟨⟩⟩

end

section

variable {table : ImportTable} {refs : List TypeRef}

/-- The table knows in the end what a call returned. -/
theorem binds_of_mem_calls {call : TypeRef × String} (h : call ∈ table.calls refs) :
    (table.registerAll refs).Binds call.1 call.2 := by
  induction refs generalizing table with
  | nil => cases h
  | cons ref refs ih =>
    rcases List.mem_cons.1 h with rfl | h
    · exact (extends_registerAll _ refs).binds (table.binds_register ref)
    · exact ih h

theorem Imports.cons {ref : TypeRef} {path identifier name : String}
    (h : (table.register ref).2.Imports refs path identifier name) :
    table.Imports (ref :: refs) path identifier name := by
  obtain ⟨call, hcall, hfile, hpath, hrest⟩ := h
  have hextends := table.extends_register ref
  refine ⟨call, List.mem_cons_of_mem _ hcall, ?_, ?_, hrest⟩
  · rwa [← hextends.file]
  · rwa [← hextends.pathTo]

theorem Binds.find? {ref : TypeRef} {name : String} (h : table.Binds ref name)
    (hfile : ref.file ≠ table.file) : table.find? (table.pathTo ref) ref.root = some name := by
  cases h with
  | own hown => exact absurd hown hfile
  | imported _ hfound => exact hfound

theorem find?_of_mem_calls {call : TypeRef × String} (h : call ∈ table.calls refs)
    (hfile : call.1.file ≠ table.file) :
    (table.registerAll refs).find? (table.pathTo call.1) call.1.root = some call.2 := by
  have hextends := table.extends_registerAll refs
  rw [← hextends.pathTo]
  exact (binds_of_mem_calls h).find? (hextends.file.symm ▸ hfile)

theorem imports_of_find? {path identifier name : String}
    (h : (table.registerAll refs).find? path identifier = some name) :
    table.find? path identifier = some name ∨ table.Imports refs path identifier name := by
  induction refs generalizing table with
  | nil => exact .inl h
  | cons ref refs ih =>
    rcases ih h with hfind | himports
    · -- The import is there after the first call: it was there before, or this call made it.
      rcases find?_register_cases hfind with hold | ⟨hfile, rfl, rfl, -⟩
      · exact .inl hold
      · have hcall : (ref, (table.register ref).1) ∈ table.calls [ref] := List.mem_cons_self
        have hname := (find?_of_mem_calls hcall hfile).symm.trans hfind
        exact .inr ⟨_, List.mem_cons_self, hfile, rfl, rfl, Option.some.inj hname⟩
    · exact .inr himports.cons

/-- What a table holds after a run are the imports that the calls of the run made. -/
theorem find?_registerAll_iff (hempty : ∀ path identifier, table.find? path identifier = none)
    {path identifier name : String} :
    (table.registerAll refs).find? path identifier = some name ↔
      table.Imports refs path identifier name := by
  constructor
  · intro h
    rcases imports_of_find? h with hfind | himports
    · rw [hempty] at hfind
      cases hfind
    · exact himports
  · rintro ⟨call, hcall, hfile, rfl, rfl, rfl⟩
    exact find?_of_mem_calls hcall hfile

theorem mem_taken_registerAll_iff
    (hempty : ∀ path identifier, table.find? path identifier = none) (htidy : table.Tidy)
    {name : String} : name ∈ (table.registerAll refs).taken ↔ table.IsTaken refs name := by
  rw [(htidy.registerAll refs).mem_taken_iff, (table.extends_registerAll refs).reserved, IsTaken]
  simp only [find?_registerAll_iff hempty]

end

/-! ## The search for an alias -/

/-- The names that are tried for an alias, one after the other: the base, and the base with the
numbers from 2 on. -/
def candidate (base : String) : Nat → String
  | 0 => base
  | k + 1 => base ++ toString (k + 2)

/-- A search that has come to a candidate ends with a name: with this one if it is not taken, and
else where the search from the next one ends. -/
inductive Search (taken : String → Prop) (base : String) : Nat → String → Prop
  | found {k : Nat} (free : ¬taken (candidate base k)) : Search taken base k (candidate base k)
  | next {k : Nat} {name : String} (used : taken (candidate base k))
      (rest : Search taken base (k + 1) name) : Search taken base k name

theorem search_firstFree {taken : List String} {base : String} {count k : Nat}
    (h : firstFree taken base count (k + 2) ∉ taken) :
    Search (· ∈ taken) base (k + 1) (firstFree taken base count (k + 2)) := by
  induction count generalizing k with
  | zero => exact .found (k := k + 1) h
  | succ count ih =>
    rw [firstFree] at h ⊢
    split at h
    next hused =>
      rw [if_pos hused]
      exact .next hused (ih h)
    next hfree =>
      rw [if_neg hfree]
      exact .found (k := k + 1) hfree

/-- The search ends, and with the name that is chosen. -/
theorem search_freeName (taken : List String) (base : String) :
    Search (· ∈ taken) base 0 (freeName taken base) := by
  have hfree := freeName_not_mem taken base
  rw [freeName] at hfree ⊢
  split at hfree
  next hused =>
    rw [if_pos hused]
    exact .next hused (search_firstFree hfree)
  next hbase =>
    rw [if_neg hbase]
    exact .found (k := 0) hbase

/-- What an alias is made from. -/
def aliasBase (ref : TypeRef) : String := qualifier ref ++ "_" ++ ref.root

/-! ## Import statements -/

/-- Import statements list imports: in the order of the paths one statement for each path, in it
the identifiers in their order, each once, alone if it is imported under its own name and with the
name if not. -/
structure Lists (entries : List ImportEntry) (imports : String → String → String → Prop) :
    Prop where
  paths : entries.Pairwise fun e e' => e.path < e'.path
  entry : ∀ e ∈ entries, ∃ pairs : List (String × String), pairs ≠ [] ∧
    (pairs.Pairwise fun p p' => p.1 < p'.1) ∧
    (∀ identifier name, (identifier, name) ∈ pairs ↔ imports e.path identifier name) ∧
    e.identifiers = pairs.map fun p => if p.1 = p.2 then p.1 else p.1 ++ " as " ++ p.2
  complete : ∀ {path identifier name}, imports path identifier name → ∃ e ∈ entries, e.path = path

theorem insert_ne_nil {α : Type} (m : KeyMap α) (key : String) (value : α) :
    KeyMap.insert m key value ≠ [] := by
  cases m with
  | nil => exact List.cons_ne_nil _ _
  | cons p rest =>
    rw [KeyMap.insert]
    split
    · exact List.cons_ne_nil _ _
    · split <;> exact List.cons_ne_nil _ _

/-- There is no path from which nothing is imported. -/
def NoEmptyPath (table : ImportTable) : Prop := ∀ p ∈ table.byPath, p.2 ≠ []

theorem noEmptyPath_reserving (file : String) (language : Language) (names : List String) :
    (reserving file language names).NoEmptyPath := by
  rw [reserving_eq]
  exact List.forall_mem_nil _

theorem NoEmptyPath.register {table : ImportTable} (h : table.NoEmptyPath) (ref : TypeRef) :
    (table.register ref).2.NoEmptyPath := by
  rcases table.register_cases ref with ⟨_, -, hregister⟩ | ⟨-, -, hregister⟩
  · rwa [hregister]
  · rw [hregister]
    intro p hp
    rcases KeyMap.mem_insert hp with rfl | hp
    · exact insert_ne_nil _ _ _
    · exact h p hp

theorem NoEmptyPath.registerAll {table : ImportTable} (h : table.NoEmptyPath)
    (refs : List TypeRef) : (table.registerAll refs).NoEmptyPath := by
  induction refs generalizing table with
  | nil => exact h
  | cons ref refs ih => exact ih (h.register ref)

/-- The import statements of a table list what the table holds. -/
theorem Tidy.lists_entries {table : ImportTable} (h : table.Tidy) (hfull : table.NoEmptyPath) :
    Lists table.entries fun path identifier name => table.find? path identifier = some name := by
  refine ⟨List.pairwise_map.2 h.paths, ?_, ?_⟩
  · intro e he
    obtain ⟨p, hp, rfl⟩ := List.mem_map.1 he
    refine ⟨p.2, hfull p hp, h.identifiers p hp, fun identifier name => ⟨?_, ?_⟩, rfl⟩
    · intro hmem
      exact h.find?_of_mem hp hmem
    · intro hfind
      rw [find?, h.paths.find?_of_mem hp, Option.bind_some] at hfind
      exact KeyMap.mem_of_find? hfind
  · intro path identifier name hfind
    obtain ⟨names, hnames, -⟩ := Option.bind_eq_some_iff.1 hfind
    exact ⟨_, List.mem_map_of_mem (KeyMap.mem_of_find? hnames), rfl⟩

/-! ## What a run returns -/

section

variable {table : ImportTable} {refs : List TypeRef}

/-- Two calls for other files return the same name just if they ask for the same import. -/
theorem Sound.names_eq_iff (h : table.Sound) {call other : TypeRef × String}
    (hcall : call ∈ table.calls refs) (hother : other ∈ table.calls refs)
    (hfile : call.1.file ≠ table.file) (hfile' : other.1.file ≠ table.file) :
    call.2 = other.2 ↔
      table.pathTo call.1 = table.pathTo other.1 ∧ call.1.root = other.1.root := by
  have hfind := find?_of_mem_calls hcall hfile
  have hfind' := find?_of_mem_calls hother hfile'
  constructor
  · intro heq
    exact (h.registerAll refs).injective hfind (heq ▸ hfind')
  · rintro ⟨hpath, hroot⟩
    rw [hpath, hroot] at hfind
    exact Option.some.inj (hfind.symm.trans hfind')

/-- A new import gets its own name if that is free, and else the alias at which the search ends. -/
theorem register_of_find?_none {ref : TypeRef} (hfile : ref.file ≠ table.file)
    (hnone : table.find? (table.pathTo ref) ref.root = none) :
    (ref.root ∈ table.taken →
      Search (· ∈ table.taken) (aliasBase ref) 0 (table.register ref).1) ∧
    (ref.root ∉ table.taken → (table.register ref).1 = ref.root) := by
  have hname : (table.register ref).1 = table.newName ref := by
    rcases table.register_cases ref with ⟨_, hbinds, -⟩ | ⟨-, -, hregister⟩
    · rw [hbinds.find? hfile] at hnone
      cases hnone
    · rw [hregister]
  rw [hname, newName]
  constructor
  · intro hroot
    rw [if_pos hroot]
    exact search_freeName table.taken (aliasBase ref)
  · intro hroot
    exact if_neg hroot

end

/-- The names that registering types returns, for any reserved names and any types. The name for a
type of another file is not reserved, and two such types get the same name just if they are
imported from the same path by the same identifier. A type of the file itself keeps its name and
changes nothing. The search for an alias ends from every state, and a new import gets its own name
if that is free and else the alias at which the search ends. The import statements list the imports
that were made. -/
theorem registrations_exact (file : String) (language : Language) (names : List String)
    (refs : List TypeRef) :
    let table := reserving file language names
    let final := table.registerAll refs
    (∀ call ∈ table.calls refs, call.1.file ≠ file → call.2 ∉ names) ∧
    (∀ call ∈ table.calls refs, ∀ other ∈ table.calls refs,
      call.1.file ≠ file → other.1.file ≠ file →
        (call.2 = other.2 ↔
          table.pathTo call.1 = table.pathTo other.1 ∧ call.1.root = other.1.root)) ∧
    (∀ ref, ref.file = file → final.register ref = (ref.root, final)) ∧
    (∀ ref, ∃ name, Search (table.IsTaken refs) (aliasBase ref) 0 name) ∧
    (∀ ref, ref.file ≠ file → (∀ name, ¬table.Imports refs (table.pathTo ref) ref.root name) →
      (table.IsTaken refs ref.root →
        Search (table.IsTaken refs) (aliasBase ref) 0 (final.register ref).1) ∧
      (¬table.IsTaken refs ref.root → (final.register ref).1 = ref.root)) ∧
    Lists final.entries (table.Imports refs) := by
  intro table final
  have hempty := find?_reserving file language names
  have hfile : table.file = file := file_reserving file language names
  have hextends : table.Extends final := table.extends_registerAll refs
  have hsound : final.Sound := (sound_reserving file language names).registerAll refs
  have htidy : table.Tidy := tidy_reserving file language names
  have htaken : (· ∈ final.taken) = table.IsTaken refs := by
    funext name
    exact propext (mem_taken_registerAll_iff hempty htidy)
  have hfind : (fun path identifier name => final.find? path identifier = some name) =
      table.Imports refs := by
    funext path identifier name
    exact propext (find?_registerAll_iff hempty)
  refine ⟨?_, ?_, ?_, ?_, ?_, ?_⟩
  · intro call hcall hforeign hmem
    apply hsound.notReserved (find?_of_mem_calls hcall (hfile.symm ▸ hforeign))
    rw [hextends.reserved]
    exact (mem_reserved_reserving file language names).2 hmem
  · intro call hcall other hother hforeign hforeign'
    rw [← hfile] at hforeign hforeign'
    exact (sound_reserving file language names).names_eq_iff hcall hother hforeign hforeign'
  · intro ref hown
    exact if_pos (hown.trans (hfile.symm.trans hextends.file.symm))
  · intro ref
    exact ⟨_, htaken ▸ search_freeName final.taken (aliasBase ref)⟩
  · intro ref hforeign hnew
    rw [← htaken]
    apply register_of_find?_none
    · rwa [hextends.file, hfile]
    · rw [hextends.pathTo, Option.eq_none_iff_forall_ne_some]
      intro name hname
      exact hnew name ((find?_registerAll_iff hempty).1 hname)
  · rw [← hfind]
    exact (htidy.registerAll refs).lists_entries
      ((noEmptyPath_reserving file language names).registerAll refs)

/-- Types called `Size` of three files, in two of them in one package, with a nested type and a type
of the file itself. -/
def sizes : List TypeRef :=
  [("other.proto", "metric", "Size"), ("other.proto", "metric", "Size.Unit"),
    ("imperial.proto", "", "Size"), ("more.proto", "metric", "Size"),
    ("other.proto", "metric", "Unit"), ("hat.proto", "shop", "Size")].map fun p =>
      ⟨p.2.1 ++ "." ++ p.2.2, p.1, p.2.1, p.2.2, .message, p.2.2⟩

/-- Where `Size` is declared, the types called so get aliases, the last of them a numbered one. -/
theorem registrations_exact_sizes :
    let table := reserving "hat.proto" .javaScript ["Size"]
    let final := table.registerAll sizes
    (table.calls sizes).map (·.2) =
      ["metric_Size", "metric_Size", "imperial_Size", "metric_Size2", "Unit", "Size"] ∧
    final.entries = [⟨["Size as imperial_Size"], "./imperial.pb.js"⟩,
      ⟨["Size as metric_Size2"], "./more.pb.js"⟩,
      ⟨["Size as metric_Size", "Unit"], "./other.pb.js"⟩] ∧
    Lists final.entries (table.Imports sizes) ∧
    ∀ call ∈ table.calls sizes, call.1.file ≠ "hat.proto" → call.2 ∉ ["Size"] := by
  intro table final
  have hexact := registrations_exact "hat.proto" .javaScript ["Size"] sizes
  exact ⟨by decide +kernel, by decide +kernel, hexact.2.2.2.2.2, hexact.1⟩

end ProtoStub.ImportTable
