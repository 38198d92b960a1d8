import ProtoStub.Proofs.Brackets

/-!
# Printing lines

A printer that refuses to go back from level 0 prints the lines of a module one by one
(`Printer.printAll?`). Lines lead it from one position to another: from brackets that are open and
a level to others (`Leads`). Neat lines lead it back to where it was, wherever that is (`Neat`), and
they are made of lines and blocks (`neat_line`, `neat_block`). If it gets to the end, it has printed
the text of the lines (`text_of_printAll?`).

What a line does to the brackets is read off its parts. Those that are spelled out are read, and
those that leave the brackets as they are can be left out (`Fits.turns`).
-/

namespace ProtoStub.Script

open Brackets

/-! ## The printer -/

/-- A printer: what it has printed, and its level. -/
structure Printer where
  text : String := ""
  level : Nat := 0
  deriving DecidableEq, Repr

namespace Printer

/-- Prints a line at the level. -/
def write (indent : String) (p : Printer) (c : Code) : Printer :=
  { p with text := p.text ++ indented indent p.level c }

/-- Goes one level up. -/
def deepen (p : Printer) : Printer :=
  { p with level := p.level + 1 }

/-- Goes one level back, unless the level is 0. -/
def back? (p : Printer) : Option Printer :=
  if p.level = 0 then none else some { p with level := p.level - 1 }

/-- Prints a line and changes the level as its kind says. -/
def print? (indent : String) (p : Printer) : Line → Option Printer
  | .blank => some { p with text := p.text ++ "\n" }
  | .line c => some (p.write indent c)
  | .opening c => some (p.write indent c).deepen
  | .middle c => p.back?.map fun p => (p.write indent c).deepen
  | .closing c => p.back?.map fun p => p.write indent c

/-- Prints lines. -/
def printAll? (indent : String) (p : Printer) (lines : List Line) : Option Printer :=
  lines.foldlM (print? indent) p

end Printer

theorem text_of_back? {p p' : Printer} (h : p.back? = some p') :
    p'.text = p.text ∧ p.level = p'.level + 1 := by
  rw [Printer.back?] at h
  obtain ⟨hlevel, ⟨⟩⟩ := Option.ite_none_left_eq_some.1 h
  exact ⟨rfl, (Nat.succ_pred hlevel).symm⟩

/-- A printer that gets to the end has printed the text of the lines. -/
theorem text_of_printAll? {indent : String} {p p' : Printer} {lines : List Line}
    (h : p.printAll? indent lines = some p') :
    p'.text = p.text ++ String.join (lineTexts indent p.level lines) := by
  induction lines generalizing p with
  | nil =>
    cases h
    simp [lineTexts]
  | cons l lines ih =>
    rw [Printer.printAll?, List.foldlM_cons] at h
    obtain ⟨q, hprint, h⟩ := Option.bind_eq_some_iff.1 h
    rw [ih h]
    cases l with
    | blank =>
      cases hprint
      simp [lineTexts, String.append_assoc]
    | line c =>
      cases hprint
      simp [lineTexts, Printer.write, String.append_assoc]
    | opening c =>
      cases hprint
      simp [lineTexts, Printer.write, Printer.deepen, String.append_assoc]
    | middle c =>
      obtain ⟨r, hback, rfl⟩ := Option.map_eq_some_iff.1 hprint
      obtain ⟨htext, hlevel⟩ := text_of_back? hback
      simp [lineTexts, Printer.write, Printer.deepen, htext, hlevel, String.append_assoc]
    | closing c =>
      obtain ⟨r, hback, rfl⟩ := Option.map_eq_some_iff.1 hprint
      obtain ⟨htext, hlevel⟩ := text_of_back? hback
      simp [lineTexts, Printer.write, htext, hlevel, String.append_assoc]

/-! ## What code does to the brackets -/

/-- Code takes brackets that are open to others. -/
structure Turns (before : List Kind) (c : Code) (after : List Kind) : Prop where
  scan_eq : scan before c.text.toList = some after

/-- Code leaves the brackets as they are. -/
abbrev Balanced (c : Code) : Prop := Turns [] c []

theorem Turns.scan {before after : List Kind} {c : Code} (h : Turns before c after)
    (below : List Kind) : scan (before ++ below) c.text.toList = some (after ++ below) :=
  scan_frame h.scan_eq below

theorem turns_text {before after : List Kind} {cs : List Char} (h : scan before cs = some after) :
    Turns before [.plain (String.ofList cs)] after :=
  ⟨by rwa [Code.text_plain, String.toList_ofList]⟩

theorem turns_bare {s : String} (h : Bare s) (pending : List Kind) :
    Turns pending [.plain s] pending := by
  constructor
  rw [Code.text_plain]
  exact h.scan pending

theorem balanced_text {s : String} (h : Bare s) : Balanced [.plain s] := turns_bare h []

theorem turns_append {s t : String} {before between after : List Kind}
    (hs : Turns before [.plain s] between) (ht : Turns between [.plain t] after) :
    Turns before [.plain (s ++ t)] after := by
  have hs := hs.scan_eq
  have ht := ht.scan_eq
  constructor
  rw [Code.text_plain] at hs ht ⊢
  rw [String.toList_append, scan_append, hs]
  exact ht

theorem balanced_ref {target : TypeRef} (h : Bare target.localName) : Balanced (ref target) := by
  have htext : (ref target).text = target.localName := by simp [ref, Code.text, Fragment.text]
  constructor
  rw [htext]
  exact h.scan []

theorem balanced_runtime (name : RuntimeName) : Balanced (runtime name) := by
  have htext : (runtime name).text = name.text := by simp [runtime, Code.text, Fragment.text]
  have hbare : Bare name.text := by cases name <;> exact bare_text rfl
  constructor
  rw [htext]
  exact hbare.scan []

theorem Turns.append {before between after : List Kind} {c d : Code} (hc : Turns before c between)
    (hd : Turns between d after) : Turns before (c ++ d) after := by
  constructor
  rw [Code.text_append, String.toList_append, scan_append, hc.scan_eq]
  exact hd.scan_eq

theorem Turns.code_cons {before between after : List Kind} {c : Code} {parts : List Code}
    (hc : Turns before c between) (h : Turns between (code parts) after) :
    Turns before (code (c :: parts)) after :=
  hc.append h

/-- The characters that are left of code when parts that leave the brackets as they are are left
out. -/
inductive Fits : List Code → List Char → Prop
  | nil : Fits [] []
  | text {cs rest : List Char} {parts : List Code} (h : Fits parts rest) :
      Fits ([.plain (String.ofList cs)] :: parts) (cs ++ rest)
  | code {c : Code} {rest : List Char} {parts : List Code} (hc : Balanced c)
      (h : Fits parts rest) : Fits (c :: parts) rest

namespace Fits

variable {parts : List Code} {cs : List Char}

theorem name {s : String} (hs : Bare s) (h : Fits parts cs) : Fits ([.plain s] :: parts) cs :=
  .code (balanced_text hs) h

theorem ref {target : TypeRef} (hs : Bare target.localName) (h : Fits parts cs) :
    Fits (Script.ref target :: parts) cs :=
  .code (balanced_ref hs) h

theorem runtime {name : RuntimeName} (h : Fits parts cs) : Fits (Script.runtime name :: parts) cs :=
  .code (balanced_runtime name) h

theorem scan_eq (h : Fits parts cs) (pending : List Kind) :
    scan pending (Script.code parts).text.toList = scan pending cs := by
  induction h generalizing pending with
  | nil => rfl
  | text h ih =>
    rw [Code.text_code_cons, String.toList_append, scan_append, Code.text_plain,
      String.toList_ofList, scan_append]
    exact congrArg _ (funext ih)
  | code hc h ih =>
    have hkeeps := hc.scan pending
    rw [List.nil_append] at hkeeps
    rw [Code.text_code_cons, String.toList_append, scan_append, hkeeps]
    exact ih pending

/-- Code does what is left of it does. -/
theorem turns (h : Fits parts cs) {before after : List Kind} (hcs : scan before cs = some after) :
    Turns before (Script.code parts) after :=
  ⟨(h.scan_eq before).trans hcs⟩

end Fits

theorem balanced_code {parts : List Code} (h : ∀ c ∈ parts, Balanced c) :
    Balanced (code parts) := by
  have hfits : Fits parts [] := by
    induction parts with
    | nil => exact .nil
    | cons c parts ih =>
      rw [List.forall_mem_cons] at h
      exact .code h.1 (ih h.2)
  exact hfits.turns rfl

/-! ## Where lines lead -/

/-- Where a printer stands: the brackets that are open, the innermost first, and the level. -/
structure Position where
  pending : List Kind
  level : Nat

/-- A printer stands at a position. -/
structure Printer.At (p : Printer) (pos : Position) : Prop where
  pending : scan [] p.text.toList = some pos.pending
  level : p.level = pos.level

/-- Lines lead from one position to another, with any text without brackets for a level. -/
def Leads (start : Position) (lines : List Line) (finish : Position) : Prop :=
  ∀ indent, Bare indent → ∀ p : Printer, p.At start →
    ∃ p', p.printAll? indent lines = some p' ∧ p'.At finish

theorem bare_levels {indent : String} (h : Bare indent) (level : Nat) :
    Bare (String.join (List.replicate level indent)) := by
  induction level with
  | zero => exact List.forall_mem_nil _
  | succ level ih =>
    rw [List.replicate_succ, String.join_cons, bare_append]
    exact ⟨h, ih⟩

theorem Printer.At.write {p : Printer} {before after below : List Kind} {level : Nat} {c : Code}
    {indent : String} (hindent : Bare indent) (hc : Turns before c after)
    (h : p.At ⟨before ++ below, level⟩) : (p.write indent c).At ⟨after ++ below, level⟩ := by
  refine ⟨?_, h.level⟩
  simp only [Printer.write, indented, String.toList_append, scan_append, h.pending,
    (bare_levels hindent _).scan, hc.scan, Option.bind_some]
  rfl

theorem Printer.At.exists_back {p : Printer} {pending : List Kind} {level : Nat}
    (hp : p.At ⟨pending, level + 1⟩) : ∃ q, p.back? = some q ∧ q.At ⟨pending, level⟩ := by
  refine ⟨{ p with level := level }, ?_, hp.pending, rfl⟩
  rw [Printer.back?, hp.level, if_neg (Nat.succ_ne_zero level)]
  rfl

theorem leads_nil (pos : Position) : Leads pos [] pos :=
  fun _ _ p hp => ⟨p, rfl, hp⟩

theorem Leads.append {start middle finish : Position} {lines lines' : List Line}
    (h : Leads start lines middle) (h' : Leads middle lines' finish) :
    Leads start (lines ++ lines') finish := by
  intro indent hindent p hp
  obtain ⟨q, hq, hpos⟩ := h indent hindent p hp
  obtain ⟨r, hr, hpos'⟩ := h' indent hindent q hpos
  refine ⟨r, ?_, hpos'⟩
  rw [Printer.printAll?, List.foldlM_append]
  exact Option.bind_eq_some_iff.2 ⟨q, hq, hr⟩

theorem leads_singleton {start finish : Position} {l : Line}
    (h : ∀ indent, Bare indent → ∀ p : Printer, p.At start →
      ∃ p', p.print? indent l = some p' ∧ p'.At finish) : Leads start [l] finish := by
  intro indent hindent p hp
  obtain ⟨p', hprint, hpos⟩ := h indent hindent p hp
  refine ⟨p', ?_, hpos⟩
  rw [Printer.printAll?, List.foldlM_cons, hprint]
  rfl

section Lines

variable {before after : List Kind} {c : Code} (hc : Turns before c after) (below : List Kind)
  (level : Nat)
include hc

theorem leads_line : Leads ⟨before ++ below, level⟩ [.line c] ⟨after ++ below, level⟩ := by
  refine leads_singleton fun indent hindent p hp => ⟨p.write indent c, rfl, ?_⟩
  exact hp.write hindent hc

theorem leads_opening :
    Leads ⟨before ++ below, level⟩ [.opening c] ⟨after ++ below, level + 1⟩ := by
  refine leads_singleton fun indent hindent p hp => ⟨(p.write indent c).deepen, rfl, ?_⟩
  have hwrite := hp.write hindent hc
  exact ⟨hwrite.pending, congrArg (· + 1) hwrite.level⟩

theorem leads_middle :
    Leads ⟨before ++ below, level + 1⟩ [.middle c] ⟨after ++ below, level + 1⟩ := by
  refine leads_singleton fun indent hindent p hp => ?_
  obtain ⟨q, hback, hq⟩ := hp.exists_back
  have hwrite := hq.write hindent hc
  refine ⟨(q.write indent c).deepen, ?_, hwrite.pending, congrArg (· + 1) hwrite.level⟩
  rw [Printer.print?, hback]
  rfl

theorem leads_closing :
    Leads ⟨before ++ below, level + 1⟩ [.closing c] ⟨after ++ below, level⟩ := by
  refine leads_singleton fun indent hindent p hp => ?_
  obtain ⟨q, hback, hq⟩ := hp.exists_back
  refine ⟨q.write indent c, ?_, hq.write hindent hc⟩
  rw [Printer.print?, hback]
  rfl

end Lines

/-! ## Neat lines -/

/-- Lines lead back to where they start. -/
def Neat (lines : List Line) : Prop := ∀ pos, Leads pos lines pos

theorem neat_nil : Neat [] := leads_nil

theorem Neat.append {lines lines' : List Line} (h : Neat lines) (h' : Neat lines') :
    Neat (lines ++ lines') :=
  fun pos => (h pos).append (h' pos)

theorem Neat.cons {l : Line} {lines : List Line} (h : Neat [l]) (h' : Neat lines) :
    Neat (l :: lines) :=
  h.append h'

theorem neat_flatMap {α : Type} {xs : List α} {f : α → List Line} (h : ∀ x ∈ xs, Neat (f x)) :
    Neat (xs.flatMap f) := by
  induction xs with
  | nil => exact neat_nil
  | cons x xs ih =>
    rw [List.forall_mem_cons] at h
    rw [List.flatMap_cons]
    exact h.1.append (ih h.2)

theorem neat_of_forall {lines : List Line} (h : ∀ l ∈ lines, Neat [l]) : Neat lines := by
  rw [← List.flatMap_singleton' lines]
  exact neat_flatMap h

theorem neat_blank : Neat [.blank] := by
  refine fun pos => leads_singleton fun indent hindent p hp => ⟨_, rfl, ?_, hp.level⟩
  rw [String.toList_append, scan_append, hp.pending]
  rfl

theorem neat_line {parts : List Code} (h : Balanced (code parts)) : Neat [line parts] :=
  fun pos => leads_line h pos.pending pos.level

/-- A block is neat if its last line closes what its first line opens. -/
theorem neat_block {head : List Code} {body : List Line} {tail : String} (pending : List Kind)
    (hhead : Turns [] (code head) pending) (hbody : Neat body)
    (htail : Turns pending [.plain tail] []) : Neat (block head body tail) := by
  intro pos
  have hopening := leads_opening hhead pos.pending pos.level
  have hclosing := leads_closing htail pos.pending pos.level
  exact hopening.append ((hbody _).append hclosing)

/-- The same for a block of two parts. -/
theorem neat_either {head middle tail : Code} {first second : List Line} {pending : List Kind}
    (hhead : Turns [] head pending) (hfirst : Neat first) (hmiddle : Turns pending middle pending)
    (hsecond : Neat second) (htail : Turns pending tail []) :
    Neat (.opening head :: (first ++ .middle middle :: (second ++ [.closing tail]))) := by
  intro pos
  have hopening := leads_opening hhead pos.pending pos.level
  have hmiddle := leads_middle hmiddle pos.pending pos.level
  have hclosing := leads_closing htail pos.pending pos.level
  exact hopening.append ((hfirst _).append (hmiddle.append ((hsecond _).append hclosing)))

end ProtoStub.Script
