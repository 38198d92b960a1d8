import Mathlib.Data.List.Nodup
import Mathlib.Data.List.Perm.Subperm
import ProtoStub.ImportTable
import ProtoStub.Proofs.KeyMaps
import ProtoStub.Proofs.Numerals

/-!
# Imports do not clash

Whatever is registered, an import table stays sound (`ImportTable.Sound`): the names that it gives
to imports are not reserved, and two imports of one name are the same import. A new name is chosen
among those that are not taken; the search for it always ends, since there are more candidates than
taken names (`freeName_not_mem`). Tables only grow, so that a name once given stays what it is
(`Extends`).
-/

namespace ProtoStub

/-! ## Dotted names -/

/-- A name, with what follows it after a dot. -/
def dotted (name : String) : Option String → String
  | none => name
  | some rest => name ++ "." ++ rest

theorem Text.cutAtFirst_of_not_mem {sep : Char} {cs : List Char} (h : sep ∉ cs) :
    cutAtFirst sep cs = none := by
  induction cs with
  | nil => rfl
  | cons c cs ih =>
    rw [List.mem_cons, not_or] at h
    rw [cutAtFirst, if_neg (Ne.symm h.1), ih h.2]
    rfl

theorem Text.cutAtFirst_append {sep : Char} {before : List Char} (h : sep ∉ before)
    (after : List Char) : cutAtFirst sep (before ++ sep :: after) = some (before, after) := by
  induction before with
  | nil => simp [cutAtFirst]
  | cons c before ih =>
    rw [List.mem_cons, not_or] at h
    rw [List.cons_append, cutAtFirst, if_neg (Ne.symm h.1), ih h.2]
    rfl

theorem cut?_dotted {name : String} (h : '.' ∉ name.toList) (rest : Option String) :
    Text.cut? '.' (dotted name rest) = rest.map (name, ·) := by
  cases rest with
  | none =>
    rw [dotted, Text.cut?, Text.cutAtFirst_of_not_mem h]
    rfl
  | some rest =>
    have hlist : (dotted name (some rest)).toList = name.toList ++ '.' :: rest.toList := by
      simp [dotted]
    rw [Text.cut?, hlist, Text.cutAtFirst_append h]
    simp

/-- Names without dots can be read off what they start. -/
theorem dotted_inj {name name' : String} (h : '.' ∉ name.toList) (h' : '.' ∉ name'.toList)
    {rest rest' : Option String} :
    dotted name rest = dotted name' rest' ↔ name = name' ∧ rest = rest' := by
  constructor
  · intro heq
    have hcut := congrArg (Text.cut? '.') heq
    rw [cut?_dotted h, cut?_dotted h'] at hcut
    cases rest with
    | none =>
      cases rest' with
      | none => exact ⟨heq, rfl⟩
      | some _ => cases hcut
    | some rest =>
      cases rest' with
      | none => cases hcut
      | some _ =>
        cases hcut
        exact ⟨rfl, rfl⟩
  · rintro ⟨rfl, rfl⟩
    rfl

namespace TypeRef

/-- The path to the type from its outermost declaration. -/
def rest (ref : TypeRef) : Option String := (Text.cut? '.' ref.shortName).map (·.2)

theorem shortName_cases (ref : TypeRef) :
    '.' ∉ ref.root.toList ∧ ref.shortName = dotted ref.root ref.rest := by
  by_cases h : '.' ∈ ref.shortName.toList
  · obtain ⟨before, after, hlist, hbefore⟩ := List.eq_append_cons_of_mem h
    have hname : ref.shortName = dotted (.ofList before) (some (.ofList after)) := by
      apply String.toList_inj.1
      simp [dotted, hlist]
    have hdot : '.' ∉ (String.ofList before).toList := by rwa [String.toList_ofList]
    rw [root, rest, hname, cut?_dotted hdot]
    exact ⟨hdot, rfl⟩
  · have hcut : Text.cut? '.' ref.shortName = none := cut?_dotted h none
    rw [root, rest, hcut]
    exact ⟨h, rfl⟩

theorem root_of_dotted {ref : TypeRef} {name : String} {rest : Option String}
    (h : ref.shortName = dotted name rest) (hname : '.' ∉ name.toList) : ref.root = name := by
  obtain ⟨hroot, hshort⟩ := ref.shortName_cases
  exact ((dotted_inj hroot hname).1 (hshort.symm.trans h)).1

theorem localName_bindRoot (ref : TypeRef) (name : String) :
    (ref.bindRoot name).localName = dotted name ref.rest := by
  rw [bindRoot, rest]
  cases Text.cut? '.' ref.shortName <;> rfl

end TypeRef

namespace ImportTable

/-! ## Free names -/

theorem firstFree_mem {taken : List String} {base : String} {count n : Nat}
    (h : firstFree taken base count n ∈ taken) :
    ∀ k ≤ count, base ++ toString (n + k) ∈ taken := by
  induction count generalizing n with
  | zero =>
    intro k hk
    obtain rfl := Nat.le_zero.1 hk
    exact h
  | succ count ih =>
    rw [firstFree] at h
    split at h
    next hn =>
      intro k hk
      cases k with
      | zero => exact hn
      | succ k =>
        rw [← Nat.add_assoc, Nat.add_right_comm]
        exact ih h k (Nat.le_of_succ_le_succ hk)
    next hn => exact absurd h hn

theorem numbered_injective (base : String) :
    Function.Injective fun n : Nat => base ++ toString n := by
  intro n n' heq
  have htext : toString n = toString n' := (String.append_right_inj base).1 heq
  have hnumber := congrArg Text.natural? htext
  rw [Text.natural?_toString, Text.natural?_toString] at hnumber
  exact Option.some.inj hnumber

/-- There are more candidates than taken names, and they all differ. -/
theorem freeName_not_mem (taken : List String) (base : String) : freeName taken base ∉ taken := by
  intro h
  rw [freeName] at h
  split at h
  next =>
    have hcandidates : (List.range (taken.length + 1)).map (fun k => base ++ toString (2 + k)) ⊆
        taken := by
      intro name hname
      obtain ⟨k, hk, rfl⟩ := List.mem_map.1 hname
      exact firstFree_mem h k (Nat.le_of_lt_succ (List.mem_range.1 hk))
    have hnodup : ((List.range (taken.length + 1)).map
        (fun k => base ++ toString (2 + k))).Nodup := by
      refine List.Nodup.map ?_ List.nodup_range
      intro k k' heq
      exact Nat.add_left_cancel (numbered_injective base heq)
    have hlength := (List.subperm_of_subset hnodup hcandidates).length_le
    rw [List.length_map, List.length_range] at hlength
    exact Nat.not_succ_le_self _ hlength
  next hbase => exact hbase h

theorem newName_not_mem (table : ImportTable) (ref : TypeRef) :
    table.newName ref ∉ table.taken := by
  rw [newName]
  split
  · exact freeName_not_mem _ _
  next h => exact h

theorem toString_dotFree (n : Nat) : '.' ∉ (toString n).toList := by
  intro h
  have hlist : (toString n).toList = Nat.toDigits 10 n := Nat.toList_repr
  have hdigit := Nat.isDigit_of_mem_toDigits (by decide) (by decide) (hlist ▸ h)
  exact absurd hdigit (by decide)

theorem firstFree_dotFree (taken : List String) {base : String} (h : '.' ∉ base.toList)
    (count n : Nat) : '.' ∉ (firstFree taken base count n).toList := by
  have hnumbered : ∀ n : Nat, '.' ∉ (base ++ toString n).toList := by
    intro n
    rw [String.toList_append, List.mem_append, not_or]
    exact ⟨h, toString_dotFree n⟩
  induction count generalizing n with
  | zero => exact hnumbered n
  | succ count ih =>
    rw [firstFree]
    split
    · exact ih (n + 1)
    · exact hnumbered n

theorem freeName_dotFree (taken : List String) {base : String} (h : '.' ∉ base.toList) :
    '.' ∉ (freeName taken base).toList := by
  rw [freeName]
  split
  · exact firstFree_dotFree taken h _ _
  · exact h

theorem qualifier_dotFree (ref : TypeRef) : '.' ∉ (qualifier ref).toList := by
  have hmap : ∀ (f : Char → Char) (cs : List Char), (∀ c, f c ≠ '.') →
      '.' ∉ (String.ofList (cs.map f)).toList := by
    intro f cs hf hmem
    rw [String.toList_ofList] at hmem
    obtain ⟨c, -, hc⟩ := List.mem_map.1 hmem
    exact hf c hc
  rw [qualifier]
  split
  · refine hmap _ _ fun c hc => ?_
    split at hc
    next halnum =>
      subst hc
      exact absurd halnum (by decide)
    · exact absurd hc (by decide)
  · refine hmap _ _ fun c hc => ?_
    split at hc
    · exact absurd hc (by decide)
    next hne => exact hne hc

theorem newName_dotFree (table : ImportTable) (ref : TypeRef) :
    '.' ∉ (table.newName ref).toList := by
  have hroot := ref.shortName_cases.1
  rw [newName]
  split
  · apply freeName_dotFree
    rw [String.toList_append, List.mem_append, not_or, String.toList_append, List.mem_append,
      not_or]
    exact ⟨⟨qualifier_dotFree ref, by decide⟩, hroot⟩
  · exact hroot

/-! ## Sound tables -/

theorem find?_bind (table : ImportTable) (path identifier name path' identifier' : String) :
    (table.bind path identifier name).find? path' identifier' =
      if path = path' ∧ identifier = identifier' then some name
      else table.find? path' identifier' := by
  simp only [find?, bind, KeyMap.find?_insert]
  by_cases hpath : path = path'
  · subst hpath
    rw [if_pos rfl, Option.bind_some, KeyMap.find?_insert]
    simp only [true_and]
    split
    · rfl
    · cases KeyMap.find? table.byPath path <;> rfl
  · rw [if_neg hpath, if_neg fun h => hpath h.1]

theorem mem_bound_of_find? {table : ImportTable} {path identifier name : String}
    (h : table.find? path identifier = some name) : name ∈ table.bound := by
  obtain ⟨names, hnames, hname⟩ := Option.bind_eq_some_iff.1 h
  refine List.mem_flatMap.2 ⟨(path, names), KeyMap.mem_of_find? hnames, ?_⟩
  exact List.mem_map.2 ⟨(identifier, name), KeyMap.mem_of_find? hname, rfl⟩

/-- What is true of the names of imports. -/
structure Sound (table : ImportTable) : Prop where
  dotFree : ∀ {path identifier name}, table.find? path identifier = some name →
    '.' ∉ name.toList
  notReserved : ∀ {path identifier name}, table.find? path identifier = some name →
    name ∉ table.reserved
  injective : ∀ {path identifier path' identifier' name},
    table.find? path identifier = some name → table.find? path' identifier' = some name →
      path = path' ∧ identifier = identifier'

/-- A later state of a table. -/
structure Extends (table later : ImportTable) : Prop where
  file : later.file = table.file
  language : later.language = table.language
  reserved : later.reserved = table.reserved
  find? : ∀ {path identifier name}, table.find? path identifier = some name →
    later.find? path identifier = some name

theorem Extends.refl (table : ImportTable) : table.Extends table := ⟨rfl, rfl, rfl, id⟩

theorem Extends.trans {first second third : ImportTable} (h : first.Extends second)
    (h' : second.Extends third) : first.Extends third :=
  ⟨h'.file.trans h.file, h'.language.trans h.language, h'.reserved.trans h.reserved,
    fun hfind => h'.find? (h.find? hfind)⟩

/-- A table knows the outermost declaration of a type by a name. -/
inductive Binds (table : ImportTable) (ref : TypeRef) : String → Prop
  | own (file : ref.file = table.file) : Binds table ref ref.root
  | imported {name : String} (file : ref.file ≠ table.file)
      (found : table.find? (table.pathTo ref) ref.root = some name) : Binds table ref name

theorem Extends.pathTo {table later : ImportTable} (h : table.Extends later) (ref : TypeRef) :
    later.pathTo ref = table.pathTo ref := by
  rw [ImportTable.pathTo, ImportTable.pathTo, h.file, h.language]

theorem Extends.binds {table later : ImportTable} (h : table.Extends later) {ref : TypeRef}
    {name : String} (hbinds : table.Binds ref name) : later.Binds ref name := by
  cases hbinds with
  | own hfile => exact .own (hfile.trans h.file.symm)
  | imported hfile hfound =>
    refine .imported (fun heq => hfile (heq.trans h.file)) ?_
    rw [h.pathTo]
    exact h.find? hfound

/-- To register a type changes nothing if the type is known, and else adds an import with a name
that is not taken. -/
theorem register_cases (table : ImportTable) (ref : TypeRef) :
    (∃ name, table.Binds ref name ∧ table.register ref = (name, table)) ∨
    (ref.file ≠ table.file ∧ table.find? (table.pathTo ref) ref.root = none ∧
      table.register ref = (table.newName ref,
        table.bind (table.pathTo ref) ref.root (table.newName ref))) := by
  unfold register
  by_cases hfile : ref.file = table.file
  · rw [if_pos hfile]
    exact .inl ⟨ref.root, .own hfile, rfl⟩
  rw [if_neg hfile]
  cases hfind : table.find? (table.pathTo ref) ref.root with
  | some name => exact .inl ⟨name, .imported hfile hfind, rfl⟩
  | none => exact .inr ⟨hfile, rfl, rfl⟩

theorem extends_register (table : ImportTable) (ref : TypeRef) :
    table.Extends (table.register ref).2 := by
  rcases table.register_cases ref with ⟨name, -, hregister⟩ | ⟨-, hnone, hregister⟩
  · rw [hregister]
    exact .refl table
  · rw [hregister]
    refine ⟨rfl, rfl, rfl, ?_⟩
    intro path identifier name hfind
    rw [find?_bind, if_neg, hfind]
    rintro ⟨rfl, rfl⟩
    rw [hnone] at hfind
    cases hfind

theorem binds_register (table : ImportTable) (ref : TypeRef) :
    (table.register ref).2.Binds ref (table.register ref).1 := by
  rcases table.register_cases ref with ⟨name, hbinds, hregister⟩ | ⟨hfile, -, hregister⟩
  · rw [hregister]
    exact hbinds
  · rw [hregister]
    exact .imported hfile ((find?_bind ..).trans (if_pos ⟨rfl, rfl⟩))

/-- An import was there before a type was registered, or is the one that this added. -/
theorem find?_register_cases {table : ImportTable} {ref : TypeRef}
    {path identifier name : String}
    (h : (table.register ref).2.find? path identifier = some name) :
    table.find? path identifier = some name ∨
      ref.file ≠ table.file ∧ table.pathTo ref = path ∧ ref.root = identifier ∧
        name = table.newName ref := by
  rcases table.register_cases ref with ⟨_, -, hregister⟩ | ⟨hfile, -, hregister⟩
  · rw [hregister] at h
    exact .inl h
  · rw [hregister, find?_bind] at h
    split at h
    next heq => exact .inr ⟨hfile, heq.1, heq.2, (Option.some.inj h).symm⟩
    · exact .inl h

/-- Registering keeps a table sound. -/
theorem Sound.register {table : ImportTable} (h : table.Sound) (ref : TypeRef) :
    (table.register ref).2.Sound := by
  have hnew := table.newName_not_mem ref
  rw [taken, List.mem_append, not_or] at hnew
  refine ⟨?_, ?_, ?_⟩
  · intro path identifier name hfind
    rcases find?_register_cases hfind with hfind | ⟨-, -, -, rfl⟩
    · exact h.dotFree hfind
    · exact table.newName_dotFree ref
  · intro path identifier name hfind
    rw [(table.extends_register ref).reserved]
    rcases find?_register_cases hfind with hfind | ⟨-, -, -, rfl⟩
    · exact h.notReserved hfind
    · exact hnew.1
  · intro path identifier path' identifier' name hfind hfind'
    rcases find?_register_cases hfind with hfind | ⟨-, rfl, rfl, rfl⟩
    · rcases find?_register_cases hfind' with hfind' | ⟨-, -, -, rfl⟩
      · exact h.injective hfind hfind'
      · exact absurd (mem_bound_of_find? hfind) hnew.2
    · rcases find?_register_cases hfind' with hfind' | ⟨-, rfl, rfl, -⟩
      · exact absurd (mem_bound_of_find? hfind') hnew.2
      · exact ⟨rfl, rfl⟩

/-! ## Known names -/

theorem Sound.dotFree_of_binds {table : ImportTable} (h : table.Sound) {ref : TypeRef}
    {name : String} (hbinds : table.Binds ref name) : '.' ∉ name.toList := by
  cases hbinds with
  | own => exact ref.shortName_cases.1
  | imported _ hfound => exact h.dotFree hfound

theorem Binds.unique {table : ImportTable} {ref ref' : TypeRef} {name name' : String}
    (h : table.Binds ref name) (h' : table.Binds ref' name') (hfile : ref.file = ref'.file)
    (hroot : ref.root = ref'.root) : name = name' := by
  cases h with
  | own hown =>
    cases h' with
    | own => exact hroot
    | imported hforeign => exact absurd (hfile ▸ hown) hforeign
  | imported hforeign hfound =>
    cases h' with
    | own hown => exact absurd (hfile ▸ hown) hforeign
    | imported _ hfound' =>
      rw [pathTo, hfile, hroot] at hfound
      exact Option.some.inj (hfound.symm.trans hfound')

/-- A name of a sound table belongs to one declaration of one file, if the declarations of the
file itself are reserved and different files are imported by different paths. -/
theorem Sound.eq_of_binds {table : ImportTable} (h : table.Sound) {ref ref' : TypeRef}
    {name : String} (hown : ref.file = table.file → ref.root ∈ table.reserved)
    (hown' : ref'.file = table.file → ref'.root ∈ table.reserved)
    (hpath : table.pathTo ref = table.pathTo ref' → ref.file = ref'.file)
    (hbinds : table.Binds ref name) (hbinds' : table.Binds ref' name) :
    ref.file = ref'.file ∧ ref.root = ref'.root := by
  generalize hname : name = other at hbinds'
  cases hbinds with
  | own hfile =>
    cases hbinds' with
    | own hfile' => exact ⟨hfile.trans hfile'.symm, hname⟩
    | imported _ hfound => exact absurd (hname ▸ hown hfile) (h.notReserved hfound)
  | imported _ hfound =>
    cases hbinds' with
    | own hfile' => exact absurd (hown' hfile') (hname ▸ h.notReserved hfound)
    | imported _ hfound' =>
      obtain ⟨hpaths, hroots⟩ := h.injective hfound (hname ▸ hfound')
      exact ⟨hpath hpaths, hroots⟩

end ImportTable

end ProtoStub
