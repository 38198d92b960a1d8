import Mathlib
import ProtoStub.Proofs.Characters

/-!
# Comments stay inside their blocks

A comment of a schema is text of its author, and a module shows it inside a documentation block. The
block ends at the first end mark `*/`, whoever wrote it, so that a mark in the comment would make
code of what follows. There is none: the end mark occurs once in the text of a block, at its very
end (`comment_ends_once`).

That a text has no end mark is said of its neighbouring characters (`Unclosed`), so that it can be
shown piece by piece. A line break parts a text into two that have nothing to do with each other
(`Unclosed.line`), which leaves the lines, and there what `guardEnd` makes of a text
(`unclosed_guardEnd`).
-/

namespace ProtoStub

namespace Text

/-- The positions at which a word starts in a list of characters. -/
def occurrences (word : List Char) : List Char → List Nat
  | [] => []
  | c :: cs =>
    (if word <+: c :: cs then [0] else []) ++ (occurrences word cs).map (· + 1)

end Text

namespace Script

/-- The characters that end a comment. -/
def endMark : List Char := ['*', '/']

/-- No end mark is in the characters: no star stands before a slash. -/
def Unclosed (cs : List Char) : Prop := cs.IsChain fun a b => ¬(a = '*' ∧ b = '/')

instance (cs : List Char) : Decidable (Unclosed cs) :=
  inferInstanceAs (Decidable (List.IsChain _ cs))

/-! ## Texts without end marks -/

namespace Unclosed

theorem cons {c : Char} {cs : List Char} (hc : c ≠ '*') (h : Unclosed cs) :
    Unclosed (c :: cs) := by
  refine List.IsChain.cons h ?_
  rintro d - ⟨rfl, -⟩
  exact hc rfl

/-- Without a star in front nothing changes. -/
theorem append {cs ds : List Char} (hcs : '*' ∉ cs) (h : Unclosed ds) : Unclosed (cs ++ ds) := by
  induction cs with
  | nil => exact h
  | cons c cs ih =>
    rw [List.mem_cons, not_or] at hcs
    exact (ih hcs.2).cons (Ne.symm hcs.1)

/-- The end mark does not go over a line break. -/
theorem line {cs ds : List Char} (hcs : Unclosed cs) (hds : Unclosed ds) :
    Unclosed (cs ++ '\n' :: ds) := by
  refine List.isChain_append.2 ⟨hcs, hds.cons (by decide), ?_⟩
  rintro a - b hb ⟨-, rfl⟩
  cases hb

end Unclosed

theorem head?_guardEnd (cs : List Char) : (guardEnd cs).head? = cs.head? := by
  fun_cases guardEnd cs <;> rfl

/-- What is guarded has no end mark. -/
theorem unclosed_guardEnd (cs : List Char) : Unclosed (guardEnd cs) := by
  fun_induction guardEnd cs with
  | case1 => exact .nil
  | case2 rest ih => exact .cons_cons (by decide) ((ih.cons (by decide)).cons (by decide))
  | case3 c rest hnot ih =>
    refine List.IsChain.cons ih ?_
    -- the guarded rest starts as the rest does, and there no slash follows a star
    rw [head?_guardEnd]
    rintro d hd ⟨rfl, rfl⟩
    cases rest with
    | nil => cases hd
    | cons d rest =>
      cases hd
      exact hnot rest rfl rfl

theorem unclosed_commentText (s : String) : Unclosed (commentText s).toList := by
  rw [commentText, String.toList_ofList]
  exact unclosed_guardEnd _

/-- A text that is unclosed up to the star of its end mark has no other end mark. -/
theorem occurrences_endMark {front : List Char} (h : Unclosed (front ++ ['*'])) :
    Text.occurrences endMark (front ++ ['*', '/', '\n']) = [front.length] := by
  induction front with
  | nil => rfl
  | cons c front ih =>
    have hrest : Unclosed (front ++ ['*']) := h.tail
    have hnot : ¬ endMark <+: c :: (front ++ ['*', '/', '\n']) := by
      cases front with
      | nil => simp [endMark]
      | cons d front =>
        have hfirst : ¬(c = '*' ∧ d = '/') := (List.isChain_cons_cons.1 h).1
        simpa [endMark, eq_comm] using hfirst
    rw [List.cons_append, Text.occurrences, if_neg hnot, ih hrest]
    rfl

/-! ## Documentation blocks -/

theorem star_not_mem_indentation {indent : String} (h : '*' ∉ indent.toList) (depth : Nat) :
    '*' ∉ (String.join (List.replicate depth indent)).toList := by
  induction depth with
  | zero => exact List.not_mem_nil
  | succ depth ih =>
    rw [List.replicate_succ, String.join_cons, String.toList_append, List.mem_append, not_or]
    exact ⟨h, ih⟩

/-- Lines that stay at their depth are printed one after the other. -/
theorem lineTexts_append_of_level {indent : String} {depth : Nat} {lines : List Line}
    (h : ∀ l ∈ lines, ∃ c, l = .line c) (rest : List Line) :
    lineTexts indent depth (lines ++ rest) =
      lineTexts indent depth lines ++ lineTexts indent depth rest := by
  induction lines with
  | nil => rfl
  | cons l lines ih =>
    rw [List.forall_mem_cons] at h
    obtain ⟨c, rfl⟩ := h.1
    rw [List.cons_append, lineTexts, lineTexts, ih h.2, List.cons_append]

/-- Lines without end marks are a text without one, whatever such text follows them. -/
theorem unclosed_lines {indent : String} (hindent : '*' ∉ indent.toList) (depth : Nat)
    {lines : List Line} (h : ∀ l ∈ lines, ∃ c, l = .line c ∧ Unclosed c.text.toList)
    {rest : List Char} (hrest : Unclosed rest) :
    Unclosed ((String.join (lineTexts indent depth lines)).toList ++ rest) := by
  induction lines with
  | nil => exact hrest
  | cons l lines ih =>
    rw [List.forall_mem_cons] at h
    obtain ⟨c, rfl, hc⟩ := h.1
    have hline := Unclosed.append (star_not_mem_indentation hindent depth) hc
    simpa [lineTexts, indented, List.append_assoc] using hline.line (ih h.2)

theorem unclosed_documentationLine {s : String} (h : Unclosed s.toList) :
    ∃ c, documentationLine s = .line c ∧ Unclosed c.text.toList := by
  refine ⟨_, rfl, ?_⟩
  split
  · decide
  · have htext : Unclosed (' ' :: '*' :: ' ' :: s.toList) :=
      .cons (by decide) (.cons_cons (by decide) (h.cons (by decide)))
    simpa [Code.text, code, Fragment.text] using htext

theorem level_of_mem_documentation {texts : List String} {l : Line}
    (h : l ∈ documentation texts) : ∃ c, l = .line c := by
  simp only [documentation, List.cons_append, List.mem_cons, List.mem_append, List.mem_map,
    List.not_mem_nil, or_false] at h
  rcases h with rfl | ⟨text, -, rfl⟩ | rfl <;> exact ⟨_, rfl⟩

/-- The text of a block up to its end mark. -/
theorem exists_documentation_eq {indent : String} (hindent : '*' ∉ indent.toList) (depth : Nat)
    {texts : List String} (h : ∀ text ∈ texts, Unclosed text.toList) :
    ∃ body : String, String.join (lineTexts indent depth (documentation texts)) =
      String.join (List.replicate depth indent) ++ "/**" ++ body ++ "*/\n" ∧
      Unclosed ((String.join (List.replicate depth indent) ++ "/**" ++ body).toList ++ ['*']) := by
  have hlines : ∀ l ∈ line ["/**"] :: texts.map documentationLine,
      ∃ c, l = .line c ∧ Unclosed c.text.toList := by
    rw [List.forall_mem_cons, List.forall_mem_map]
    exact ⟨⟨_, rfl, by decide⟩, fun text htext => unclosed_documentationLine (h text htext)⟩
  have hlast : Unclosed ((String.join (List.replicate depth indent)).toList ++ [' ', '*']) :=
    .append (star_not_mem_indentation hindent depth) (by decide)
  have hfront := unclosed_lines hindent depth hlines hlast
  have hlevel : ∀ l ∈ line ["/**"] :: texts.map documentationLine, ∃ c, l = .line c :=
    fun l hl => level_of_mem_documentation (List.mem_append_left _ hl)
  refine ⟨"\n" ++ String.join (lineTexts indent depth (texts.map documentationLine)) ++
    String.join (List.replicate depth indent) ++ " ", ?_, ?_⟩
  · rw [documentation, lineTexts_append_of_level hlevel]
    apply String.toList_inj.1
    simp [line, lineTexts, indented]
  · simpa [line, lineTexts, indented, List.append_assoc] using hfront

/-- The end mark occurs once in the text of a comment, as the last two characters before the line
break at its end, and the text starts, after the indentation, with the mark of a documentation
block. What is printed next comes after all of it. -/
theorem comment_ends_once (s indent : String) (depth : Nat)
    (hindent : ∀ c ∈ indent.toList, c = ' ' ∨ c = '\t') :
    let text := String.join (lineTexts indent depth (comment (some s)))
    Text.occurrences endMark text.toList = [text.length - 3] ∧
      (∃ body, text = String.join (List.replicate depth indent) ++ "/**" ++ body ++ "*/\n") ∧
      ∀ rest, String.join (lineTexts indent depth (comment (some s) ++ rest)) =
        text ++ String.join (lineTexts indent depth rest) := by
  intro text
  have hstar : '*' ∉ indent.toList := by
    intro hmem
    rcases hindent _ hmem with h | h <;> cases h
  have htexts : ∀ t ∈ (Text.lines s).map commentText, Unclosed t.toList :=
    List.forall_mem_map.2 fun t _ => unclosed_commentText t
  have hlevel : ∀ l ∈ comment (some s), ∃ c, l = .line c := fun _ => level_of_mem_documentation
  obtain ⟨body, hblock, hbody⟩ := exists_documentation_eq hstar depth htexts
  have htext : text = String.join (List.replicate depth indent) ++ "/**" ++ body ++ "*/\n" := hblock
  refine ⟨?_, ⟨body, htext⟩, fun rest => ?_⟩
  · have hlist : text.toList =
        (String.join (List.replicate depth indent) ++ "/**" ++ body).toList ++
          ['*', '/', '\n'] := by
      rw [htext, String.toList_append]
      rfl
    rw [← String.length_toList, hlist, occurrences_endMark hbody, List.length_append]
    rfl
  · rw [lineTexts_append_of_level hlevel, String.join_append]

/-- End marks at the start and the end of a line, one in a run of stars and slashes, and one that a
line break parts. -/
theorem comment_ends_once_marks :
    let text := String.join (lineTexts "\t" 1 (comment (some "*/ **// *\n/\n */")))
    (∀ c ∈ "\t".toList, c = ' ' ∨ c = '\t') ∧
      text = "\t/**\n\t * *\\/ **\\// *\n\t * /\n\t * *\\/\n\t */\n" ∧
      Text.occurrences endMark text.toList = [37] := by
  intro text
  have hindent : ∀ c ∈ "\t".toList, c = ' ' ∨ c = '\t' := by simp
  have htext : text = "\t/**\n\t * *\\/ **\\// *\n\t * /\n\t * *\\/\n\t */\n" := by decide +kernel
  have hends := (comment_ends_once "*/ **// *\n/\n */" "\t" 1 hindent).1
  refine ⟨hindent, htext, hends.trans ?_⟩
  decide +kernel

end Script

end ProtoStub
