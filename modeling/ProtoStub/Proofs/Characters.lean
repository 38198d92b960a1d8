import Mathlib
import ProtoStub.Script.Expression
import ProtoStub.Script.Comment
import ProtoStub.Proofs.ModulePaths

/-!
# The characters of derived texts

Generated code shows names and comments of a schema, and texts that are made of them. Most of these
are cut out of others, or have characters of a few known kinds besides. So a property that all
characters of a text have (`Text.All`) carries over to them.
-/

namespace ProtoStub

namespace Text

/-- Every character of a text has a property. -/
def All (P : Char → Prop) (s : String) : Prop := ∀ c ∈ s.toList, P c

instance (P : Char → Prop) [DecidablePred P] (s : String) : Decidable (All P s) :=
  List.decidableBAll P s.toList

variable {P : Char → Prop}

@[simp] theorem all_ofList {cs : List Char} : All P (String.ofList cs) ↔ ∀ c ∈ cs, P c := by
  rw [All, String.toList_ofList]

@[simp] theorem all_append {s t : String} : All P (s ++ t) ↔ All P s ∧ All P t := by
  rw [All, String.toList_append, List.forall_mem_append, All, All]

theorem all_intercalate {sep : String} {parts : List String} (hsep : All P sep)
    (h : ∀ part ∈ parts, All P part) : All P (sep.intercalate parts) := by
  induction parts with
  | nil => exact List.forall_mem_nil _
  | cons part parts ih =>
    rw [List.forall_mem_cons] at h
    by_cases hne : parts = []
    · simpa [hne] using h.1
    · rw [String.intercalate_cons_of_ne_nil hne, all_append, all_append]
      exact ⟨⟨h.1, hsep⟩, ih h.2⟩

/-! ## Parts of a text -/

theorem mem_of_mem_linesFrom {c : Char} {current cs line : List Char}
    (hline : line ∈ linesFrom current cs) (hc : c ∈ line) : c ∈ current ∨ c ∈ cs := by
  fun_induction linesFrom current cs with
  | case1 => exact absurd hline List.not_mem_nil
  | case2 current =>
    rw [List.mem_singleton.1 hline, List.mem_reverse] at hc
    exact .inl hc
  | case3 current cs ih =>
    rcases List.mem_cons.1 hline with rfl | hline
    · left
      split at hc
      · exact List.mem_cons_of_mem _ (List.mem_reverse.1 hc)
      · exact List.mem_reverse.1 hc
    · exact (ih hline).elim (absurd · List.not_mem_nil) fun h => .inr (List.mem_cons_of_mem _ h)
  | case4 current d cs hd ih =>
    rcases ih hline with h | h
    · rcases List.mem_cons.1 h with rfl | h
      · exact .inr List.mem_cons_self
      · exact .inl h
    · exact .inr (List.mem_cons_of_mem _ h)

theorem all_of_mem_lines {s line : String} (h : All P s) (hline : line ∈ lines s) : All P line := by
  obtain ⟨cs, hcs, rfl⟩ := List.mem_map.1 hline
  rw [all_ofList]
  intro c hc
  exact h c ((mem_of_mem_linesFrom hcs hc).resolve_left List.not_mem_nil)

theorem mem_of_mem_splitAtEach {sep c : Char} {cs part : List Char}
    (hpart : part ∈ splitAtEach sep cs) (hc : c ∈ part) : c ∈ cs := by
  induction cs generalizing part with
  | nil =>
    rw [List.mem_singleton.1 hpart] at hc
    exact hc
  | cons d cs ih =>
    rw [splitAtEach] at hpart
    split at hpart
    · rcases List.mem_cons.1 hpart with rfl | hpart
      · exact absurd hc List.not_mem_nil
      · exact List.mem_cons_of_mem _ (ih hpart hc)
    · split at hpart
      · rw [List.mem_singleton.1 hpart, List.mem_singleton] at hc
        exact hc ▸ List.mem_cons_self
      next p ps hsplit =>
        rw [hsplit] at ih
        rcases List.mem_cons.1 hpart with rfl | hpart
        · rcases List.mem_cons.1 hc with rfl | hc
          · exact List.mem_cons_self
          · exact List.mem_cons_of_mem _ (ih List.mem_cons_self hc)
        · exact List.mem_cons_of_mem _ (ih (List.mem_cons_of_mem _ hpart) hc)

theorem all_of_mem_pieces {sep : Char} {s part : String} (h : All P s)
    (hpart : part ∈ pieces sep s) : All P part := by
  obtain ⟨cs, hcs, rfl⟩ := List.mem_map.1 hpart
  rw [all_ofList]
  exact fun c hc => h c (mem_of_mem_splitAtEach hcs hc)

theorem all_trimEnd {s : String} (h : All P s) : All P (trimEnd s) := by
  rw [trimEnd, all_ofList]
  intro c hc
  rw [trimEndChars, List.mem_reverse] at hc
  exact h c (List.mem_reverse.1 ((List.dropWhile_sublist _).subset hc))

theorem all_afterStart {start s : String} (h : All P s) : All P ((afterStart? start s).getD s) := by
  cases hstart : afterStart? start s with
  | none => exact h
  | some rest =>
    rw [eq_append_of_afterStart? hstart, all_append] at h
    exact h.2

/-! ## Texts with other characters -/

theorem isUpper_toUpper {c : Char} (h : c.isLower = true) : c.toUpper.isUpper = true := by
  rw [Char.isUpper_toUpper_eq_isAlpha, Char.isAlpha, h, Bool.or_true]

theorem isLower_toLower {c : Char} (h : c.isUpper = true) : c.toLower.isLower = true := by
  rw [Char.isLower_toLower_eq_isAlpha, Char.isAlpha, h, Bool.true_or]

/-- Camel case has nothing new but capitals. -/
theorem all_camelCase (hupper : ∀ c : Char, c.isUpper → P c) {name : String} (h : All P name) :
    All P (camelCase name) := by
  have hraised : ∀ c, P c → P c.toUpper := by
    intro c hc
    by_cases hlower : c.isLower
    · exact hupper _ (isUpper_toUpper hlower)
    · rwa [Char.toUpper_eq_of_not_isLower hlower]
  have hfrom : ∀ raise, ∀ c ∈ camelFrom raise name.toList, P c := by
    intro raise
    rw [All] at h
    generalize name.toList = cs at h ⊢
    fun_induction camelFrom raise cs with
    | case1 => exact List.forall_mem_nil _
    | case2 raise cs ih => exact ih (List.forall_mem_of_forall_mem_cons h)
    | case3 raise c cs hc ih =>
      rw [List.forall_mem_cons] at h ⊢
      refine ⟨?_, ih h.2⟩
      split
      · exact hraised c h.1
      · exact h.1
  rw [camelCase, all_ofList]
  exact hfrom false

theorem all_toString_nat (hdigit : ∀ c : Char, c.isDigit → P c) (n : Nat) : All P (toString n) := by
  intro c hc
  have hlist : (toString n).toList = Nat.toDigits 10 n := Nat.toList_repr
  exact hdigit c (Nat.isDigit_of_mem_toDigits (by decide) (by decide) (hlist ▸ hc))

theorem all_toString_int (hdigit : ∀ c : Char, c.isDigit → P c) (hminus : P '-') (n : Int) :
    All P (toString n) := by
  cases n with
  | ofNat n => exact all_toString_nat hdigit n
  | negSucc n =>
    have htext : toString (Int.negSucc n) = "-" ++ toString (n + 1) := rfl
    rw [htext, all_append]
    exact ⟨by simpa [All] using hminus, all_toString_nat hdigit _⟩

end Text

namespace Script

open Text (All)

variable {P : Char → Prop}

theorem all_inQuotes (hquote : P '"') {s : String} (h : All P s) : All P (inQuotes s) := by
  have hmark : All P "\"" := by simpa [All] using hquote
  rw [inQuotes, Text.all_append, Text.all_append]
  exact ⟨⟨hmark, h⟩, hmark⟩

theorem mem_of_mem_guardEnd {c : Char} {cs : List Char} (h : c ∈ guardEnd cs) :
    c = '\\' ∨ c ∈ cs := by
  fun_induction guardEnd cs with
  | case1 => exact absurd h List.not_mem_nil
  | case2 rest ih =>
    simp only [List.mem_cons] at h ⊢
    tauto
  | case3 d rest _ ih =>
    simp only [List.mem_cons] at h ⊢
    tauto

theorem all_commentText (hbackslash : P '\\') {s : String} (h : All P s) :
    All P (commentText s) := by
  rw [commentText, Text.all_ofList]
  intro c hc
  rcases mem_of_mem_guardEnd hc with rfl | hc
  · exact hbackslash
  · exact Text.all_trimEnd (Text.all_afterStart h) c hc

theorem all_withoutQuestionMarks {name : String} (h : All P name) :
    All P (withoutQuestionMarks name) := by
  rw [withoutQuestionMarks, Text.all_ofList]
  intro c hc
  rw [List.mem_reverse] at hc
  exact h c (List.mem_reverse.1 ((List.dropWhile_sublist _).subset hc))

end Script

end ProtoStub
