import ProtoStub.Proofs.Characters
import ProtoStub.Script.Module

/-!
# Brackets

The brackets of a text nest if every one that is opened is closed by one of its kind, with a nested
text between the two (`Nested`). Reading a text with a stack of the brackets that are open decides
it (`scan`). What one character does to the stack is said once (`step_eq_some_iff`); that the stack
does not depend on what lies below (`scan_frame`), that it holds what was opened and not closed
(`count_of_scan`), and that a text which ends with an empty stack is nested (`nested_of_scan`) all
follow from that.
-/

namespace ProtoStub

namespace Brackets

/-- The kinds of brackets. -/
inductive Kind where
  | round
  | square
  | curly
  deriving DecidableEq, Repr

/-- The characters that open and close brackets. -/
def bracketChars : List Char := ['(', ')', '[', ']', '\x7b', '\x7d']

/-- A character is a bracket. -/
def IsBracket (c : Char) : Prop := c ∈ bracketChars

instance (c : Char) : Decidable (IsBracket c) := inferInstanceAs (Decidable (c ∈ _))

namespace Kind

/-- The character that opens a bracket. -/
def opening : Kind → Char
  | round => '('
  | square => '['
  | curly => '\x7b'

/-- The character that closes a bracket. -/
def closing : Kind → Char
  | round => ')'
  | square => ']'
  | curly => '\x7d'

/-- The bracket that a character opens. -/
def opened? (c : Char) : Option Kind :=
  if c = '(' then some round
  else if c = '[' then some square
  else if c = '\x7b' then some curly
  else none

/-- The bracket that a character closes. -/
def closed? (c : Char) : Option Kind :=
  if c = ')' then some round
  else if c = ']' then some square
  else if c = '\x7d' then some curly
  else none

@[simp] theorem opened?_opening (b : Kind) : opened? b.opening = some b := by
  cases b <;> rfl

@[simp] theorem opened?_closing (b : Kind) : opened? b.closing = none := by
  cases b <;> rfl

@[simp] theorem closed?_closing (b : Kind) : closed? b.closing = some b := by
  cases b <;> rfl

theorem eq_opening_of_opened? {c : Char} {b : Kind} (h : opened? c = some b) :
    c = b.opening := by
  rw [opened?] at h
  split_ifs at h with hc hc hc <;> cases h <;> exact hc

theorem eq_closing_of_closed? {c : Char} {b : Kind} (h : closed? c = some b) :
    c = b.closing := by
  rw [closed?] at h
  split_ifs at h with hc hc hc <;> cases h <;> exact hc

theorem not_isBracket_iff {c : Char} : ¬IsBracket c ↔ opened? c = none ∧ closed? c = none := by
  simp only [IsBracket, bracketChars, opened?, closed?, List.mem_cons, List.not_mem_nil, or_false]
  split_ifs <;> simp_all

@[simp] theorem opening_inj {b b' : Kind} : b.opening = b'.opening ↔ b = b' := by
  cases b <;> cases b' <;> decide

@[simp] theorem closing_inj {b b' : Kind} : b.closing = b'.closing ↔ b = b' := by
  cases b <;> cases b' <;> decide

@[simp] theorem opening_ne_closing (b b' : Kind) : b.opening ≠ b'.closing := by
  cases b <;> cases b' <;> decide

theorem isBracket_opening (b : Kind) : IsBracket b.opening := by
  cases b <;> decide

theorem isBracket_closing (b : Kind) : IsBracket b.closing := by
  cases b <;> decide

end Kind

open Kind

/-- The brackets of a text nest. -/
inductive Nested : List Char → Prop
  | nil : Nested []
  | other {c : Char} {cs : List Char} (hc : ¬IsBracket c) (hcs : Nested cs) : Nested (c :: cs)
  | pair {inner rest : List Char} (b : Kind) (hinner : Nested inner) (hrest : Nested rest) :
      Nested (b.opening :: (inner ++ b.closing :: rest))

/-! ## Reading with a stack -/

/-- The brackets that are open after a character, the innermost first. -/
def step (pending : List Kind) (c : Char) : Option (List Kind) :=
  match opened? c, closed? c with
  | some b, _ => some (b :: pending)
  | none, some b => if pending.head? = some b then some pending.tail else none
  | none, none => some pending

/-- The brackets that are open after a text. -/
def scan (pending : List Kind) : List Char → Option (List Kind)
  | [] => some pending
  | c :: cs => (step pending c).bind fun pending => scan pending cs

/-- What a character does: it opens a bracket, closes the innermost one, or is no bracket. -/
theorem step_eq_some_iff {pending after : List Kind} {c : Char} :
    step pending c = some after ↔
      (∃ b, c = Kind.opening b ∧ after = b :: pending) ∨
      (∃ b, c = Kind.closing b ∧ pending = b :: after) ∨
      (¬IsBracket c ∧ after = pending) := by
  constructor
  · intro h
    rw [step] at h
    cases hopened : opened? c with
    | some b =>
      rw [hopened] at h
      cases h
      exact .inl ⟨b, eq_opening_of_opened? hopened, rfl⟩
    | none =>
      cases hclosed : closed? c with
      | some b =>
        rw [hopened, hclosed] at h
        obtain ⟨hhead, ⟨⟩⟩ := Option.ite_none_right_eq_some.1 h
        exact .inr (.inl ⟨b, eq_closing_of_closed? hclosed,
          (List.cons_head?_tail hhead).symm⟩)
      | none =>
        rw [hopened, hclosed] at h
        cases h
        exact .inr (.inr ⟨not_isBracket_iff.2 ⟨hopened, hclosed⟩, rfl⟩)
  · rintro (⟨b, rfl, rfl⟩ | ⟨b, rfl, rfl⟩ | ⟨hc, rfl⟩)
    · simp [step]
    · simp [step]
    · obtain ⟨hopened, hclosed⟩ := not_isBracket_iff.1 hc
      simp [step, hopened, hclosed]

theorem scan_cons_eq_some {pending after : List Kind} {c : Char} {cs : List Char}
    (h : scan pending (c :: cs) = some after) :
    ∃ between, step pending c = some between ∧ scan between cs = some after :=
  Option.bind_eq_some_iff.1 h

theorem scan_append (pending : List Kind) (cs ds : List Char) :
    scan pending (cs ++ ds) = (scan pending cs).bind fun between => scan between ds := by
  induction cs generalizing pending with
  | nil => rfl
  | cons c cs ih =>
    rw [List.cons_append, scan, scan, Option.bind_assoc]
    exact congrArg _ (funext ih)

/-- What lies below the brackets that a text opens and closes does not matter. -/
theorem scan_frame {pending after : List Kind} {cs : List Char}
    (h : scan pending cs = some after) (below : List Kind) :
    scan (pending ++ below) cs = some (after ++ below) := by
  induction cs generalizing pending with
  | nil =>
    cases h
    rfl
  | cons c cs ih =>
    obtain ⟨between, hstep, hscan⟩ := scan_cons_eq_some h
    have hframe : step (pending ++ below) c = some (between ++ below) := by
      rcases step_eq_some_iff.1 hstep with ⟨b, hc, rfl⟩ | ⟨b, hc, rfl⟩ | ⟨hc, rfl⟩
      · exact step_eq_some_iff.2 (.inl ⟨b, hc, rfl⟩)
      · exact step_eq_some_iff.2 (.inr (.inl ⟨b, hc, rfl⟩))
      · exact step_eq_some_iff.2 (.inr (.inr ⟨hc, rfl⟩))
    rw [scan, hframe]
    exact ih hscan

theorem scan_of_not_isBracket {cs : List Char} (h : ∀ c ∈ cs, ¬IsBracket c)
    (pending : List Kind) : scan pending cs = some pending := by
  induction cs with
  | nil => rfl
  | cons c cs ih =>
    rw [List.forall_mem_cons] at h
    rw [scan, step_eq_some_iff.2 (.inr (.inr ⟨h.1, rfl⟩))]
    exact ih h.2

/-- The stack holds what was opened and not closed. -/
theorem count_of_scan {pending after : List Kind} {cs : List Char}
    (h : scan pending cs = some after) (b : Kind) :
    cs.count b.opening + pending.count b = cs.count b.closing + after.count b := by
  induction cs generalizing pending with
  | nil =>
    cases h
    rfl
  | cons c cs ih =>
    obtain ⟨between, hstep, hscan⟩ := scan_cons_eq_some h
    have hrest := ih hscan
    rcases step_eq_some_iff.1 hstep with ⟨b', rfl, rfl⟩ | ⟨b', rfl, rfl⟩ | ⟨hc, rfl⟩
    · simp only [List.count_cons, beq_iff_eq, opening_inj, opening_ne_closing,
        if_false] at hrest ⊢
      omega
    · simp only [List.count_cons, beq_iff_eq, closing_inj,
        (opening_ne_closing _ _).symm, if_false] at hrest ⊢
      omega
    · have hopening : c ≠ b.opening := fun heq => hc (heq ▸ b.isBracket_opening)
      have hclosing : c ≠ b.closing := fun heq => hc (heq ▸ b.isBracket_closing)
      rwa [List.count_cons_of_ne hopening, List.count_cons_of_ne hclosing]

/-- No start of a text closes more brackets than it opens, if the stack is not used up. -/
theorem count_closing_le {cs start : List Char} (h : scan [] cs = some []) (hstart : start <+: cs)
    (b : Kind) : start.count b.closing ≤ start.count b.opening := by
  obtain ⟨rest, rfl⟩ := hstart
  rw [scan_append] at h
  obtain ⟨between, hbetween, -⟩ := Option.bind_eq_some_iff.1 h
  have hcount := count_of_scan hbetween b
  rw [List.count_nil] at hcount
  omega

theorem count_opening_eq {cs : List Char} (h : scan [] cs = some []) (b : Kind) :
    cs.count b.opening = cs.count b.closing := by
  simpa using count_of_scan h b

/-! ## Nested texts -/

/-- A text closes open brackets, the innermost first, and is nested between them. -/
def Closes : List Kind → List Char → Prop
  | [], cs => Nested cs
  | b :: below, cs =>
    ∃ inner rest, cs = inner ++ b.closing :: rest ∧ Nested inner ∧ Closes below rest

theorem Closes.other {c : Char} (hc : ¬IsBracket c) {pending : List Kind} {cs : List Char}
    (h : Closes pending cs) : Closes pending (c :: cs) := by
  cases pending with
  | nil => exact Nested.other hc h
  | cons b below =>
    obtain ⟨inner, rest, rfl, hinner, hrest⟩ := h
    exact ⟨c :: inner, rest, rfl, Nested.other hc hinner, hrest⟩

theorem Closes.pair {b : Kind} {pending : List Kind} {cs : List Char}
    (h : Closes (b :: pending) cs) : Closes pending (b.opening :: cs) := by
  obtain ⟨inner, rest, rfl, hinner, hrest⟩ := h
  cases pending with
  | nil => exact Nested.pair b hinner hrest
  | cons b' below =>
    obtain ⟨inner', rest', rfl, hinner', hrest'⟩ := hrest
    refine ⟨b.opening :: (inner ++ b.closing :: inner'), rest', ?_, ?_, hrest'⟩
    · simp
    · exact Nested.pair b hinner hinner'

theorem closes_of_scan {pending : List Kind} {cs : List Char} (h : scan pending cs = some []) :
    Closes pending cs := by
  induction cs generalizing pending with
  | nil =>
    cases h
    exact .nil
  | cons c cs ih =>
    obtain ⟨between, hstep, hscan⟩ := scan_cons_eq_some h
    rcases step_eq_some_iff.1 hstep with ⟨b, rfl, rfl⟩ | ⟨b, rfl, rfl⟩ | ⟨hc, rfl⟩
    · exact (ih hscan).pair
    · exact ⟨[], cs, rfl, .nil, ih hscan⟩
    · exact (ih hscan).other hc

theorem nested_of_scan {cs : List Char} (h : scan [] cs = some []) : Nested cs :=
  closes_of_scan h

/-! ## Texts without brackets -/

/-- A text has no brackets. -/
def Bare (s : String) : Prop := Text.All (fun c => ¬IsBracket c) s

instance (s : String) : Decidable (Bare s) :=
  inferInstanceAs (Decidable (Text.All (fun c => ¬IsBracket c) s))

@[simp] theorem bare_append {s t : String} : Bare (s ++ t) ↔ Bare s ∧ Bare t := Text.all_append

theorem bare_text {cs : List Char} (h : (cs.all fun c => !decide (IsBracket c)) = true) :
    Bare (String.ofList cs) := by
  rw [Bare, Text.all_ofList]
  intro c hc hbracket
  have hnot := List.all_eq_true.1 h c hc
  rw [decide_eq_true hbracket] at hnot
  cases hnot

theorem Bare.scan {s : String} (h : Bare s) (pending : List Kind) :
    scan pending s.toList = some pending :=
  scan_of_not_isBracket h pending

theorem not_isBracket_of {p : Char → Bool} {c : Char}
    (hp : bracketChars.all fun d => !p d) (h : p c) : ¬IsBracket c := by
  intro hc
  have hnot := List.all_eq_true.1 hp c hc
  rw [h] at hnot
  cases hnot

theorem not_isBracket_toLower {c : Char} (hc : ¬IsBracket c) : ¬IsBracket c.toLower := by
  by_cases hupper : c.isUpper
  · exact not_isBracket_of (p := Char.isLower) (by decide) (Text.isLower_toLower hupper)
  · rwa [Char.toLower_eq_of_not_isUpper hupper]

theorem not_isBracket_ofNat {n : Nat} (hn : 126 ≤ n) : ¬IsBracket (Char.ofNat n) := by
  have hcode : (Char.ofNat n).toNat = 0 ∨ 126 ≤ (Char.ofNat n).toNat := by
    rw [Char.toNat_ofNat]
    split
    · exact .inr hn
    · exact .inl rfl
  apply not_isBracket_of (p := fun d => d.toNat = 0 ∨ 126 ≤ d.toNat) (by decide)
  exact decide_eq_true hcode

/-- Lower case has no brackets: but for the letter k and the letter i, what is beyond ASCII stays
there. -/
theorem not_isBracket_of_mem_lowercase {c d : Char} (hc : ¬IsBracket c)
    (hd : d ∈ Text.lowercase c) : ¬IsBracket d := by
  have hruns : ∀ r ∈ Text.caseRuns, 126 ≤ r.first + r.shift ∨
      r.last ≤ r.first ∧ r.first + r.shift = 107 := by decide +kernel
  rw [Text.lowercase] at hd
  split at hd
  · rw [List.mem_singleton.1 hd]
    exact not_isBracket_toLower hc
  split at hd
  · simp only [List.mem_cons, List.not_mem_nil, or_false] at hd
    rcases hd with rfl | rfl <;> decide
  split at hd
  next r hfind =>
    have hholds := List.find?_some hfind
    simp only [Text.CaseRun.holds, Bool.and_eq_true, decide_eq_true_eq] at hholds
    rw [List.mem_singleton.1 hd]
    rcases hruns r (List.mem_of_find?_eq_some hfind) with hfar | ⟨hlast, hletter⟩
    · exact not_isBracket_ofNat (by omega)
    · have hcode : (c.toNat + r.shift).toNat = 107 := by omega
      rw [hcode]
      decide
  next =>
    rw [List.mem_singleton.1 hd]
    exact hc

end Brackets

namespace Script

open Brackets

theorem bare_inQuotes {s : String} (h : Bare s) : Bare (inQuotes s) :=
  all_inQuotes (by decide) h

theorem bare_camelCase {s : String} (h : Bare s) : Bare (Text.camelCase s) :=
  Text.all_camelCase (fun _ => not_isBracket_of (by decide)) h

theorem bare_toString_nat (n : Nat) : Bare (toString n) :=
  Text.all_toString_nat (fun _ => not_isBracket_of (by decide)) n

theorem bare_toString_int (n : Int) : Bare (toString n) :=
  Text.all_toString_int (fun _ => not_isBracket_of (by decide)) (by decide) n

theorem bare_lowerFirst {name : String} (h : Bare name) : Bare (lowerFirst name) := by
  rw [lowerFirst]
  split
  next => exact bare_text rfl
  next c rest hname =>
    rw [Bare, Text.All, hname, List.forall_mem_cons] at h
    rw [Bare, Text.all_ofList, List.forall_mem_append]
    exact ⟨fun d => not_isBracket_of_mem_lowercase h.1, h.2⟩

theorem bare_parameterName {typeName : String} (h : Bare typeName) :
    Bare (parameterName typeName) := by
  have hlast : Bare (((Text.pieces '.' typeName).getLast?).getD typeName) := by
    cases hpieces : (Text.pieces '.' typeName).getLast? with
    | none => exact h
    | some last => exact Text.all_of_mem_pieces h (List.mem_of_getLast? hpieces)
  rw [parameterName]
  split
  · exact bare_append.2 ⟨bare_lowerFirst hlast, bare_text rfl⟩
  · exact bare_lowerFirst hlast

end Script

end ProtoStub
