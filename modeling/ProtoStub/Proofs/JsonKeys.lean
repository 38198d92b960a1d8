import ProtoStub.Generate
import ProtoStub.Json.Lexer
import ProtoStub.Proofs.BuiltFields
import ProtoStub.Proofs.Characters

/-!
# The JSON keys of generated code

Generated code names the members of a JSON object by string literals. A script reads a literal as a
sequence of UTF-16 units: up to the first quote that no backslash stands before, with the escape
sequences of the language (`readLiteral`). The keys are written between quotes as they stand, so a
literal is read as the key just if the key has none of the four characters that mean something else
there (`readLiteral_of_plain`, `plain_of_readLiteral`): the quote ends the literal, the backslash
starts an escape sequence, and line feed and carriage return may not stand in a literal.

That no other key is read back by accident takes an argument, since a backslash at the end of a key
makes the literal go on behind it. Behind an escape sequence the units that were read lag behind the
key. What they lag behind by never starts with a quote, so that they never catch up
(`readLiteral_ne_of_lag`).
-/

namespace ProtoStub.Script

/-! ## String literals of the language -/

/-- The UTF-16 units of a code point. -/
def utf16 (n : Nat) : List Nat :=
  if n < 0x10000 then [n]
  else [0xD800 + (n - 0x10000) / 0x400, 0xDC00 + (n - 0x10000) % 0x400]

/-- The UTF-16 units of a text. -/
def units (cs : List Char) : List Nat := cs.flatMap fun c => utf16 c.toNat

/-- A number of so many hexadecimal digits, after those that were read, and what follows it. -/
def hexNumber? : (count value : Nat) → List Char → Option (Nat × List Char)
  | 0, value, cs => some (value, cs)
  | _ + 1, _, [] => none
  | count + 1, value, c :: cs =>
    (Json.hexValue? c).bind fun d => hexNumber? count (value * 16 + d) cs

/-- A code point up to its closing brace, after the digits that were read, and what follows it. -/
def codePoint? (value : Nat) : List Char → Option (Nat × List Char)
  | [] => none
  | c :: cs =>
    if c = '\x7d' then some (value, cs)
    else
      (Json.hexValue? c).bind fun d =>
        if value * 16 + d ≤ 0x10FFFF then codePoint? (value * 16 + d) cs else none

/-- An escape sequence by number, read behind its letter `u`: of four digits, or of any number of
digits in braces. -/
def unicodeEscape? (cs : List Char) : Option (List Nat × List Char) :=
  match Text.dropStart? ['\x7b'] cs with
  | some cs => ((hexNumber? 1 0 cs).bind fun p => codePoint? p.1 p.2).map fun p => (utf16 p.1, p.2)
  | none => (hexNumber? 4 0 cs).map fun p => ([p.1], p.2)

/-- The control characters that have a letter. -/
def letterEscape? : Char → Option Nat
  | 'b' => some 0x08
  | 't' => some 0x09
  | 'n' => some 0x0A
  | 'v' => some 0x0B
  | 'f' => some 0x0C
  | 'r' => some 0x0D
  | _ => none

/-- The units that an escape sequence stands for, read behind its backslash, and what follows it.
A line break is passed over. A zero stands for the null character, unless a digit follows, and other
digits for nothing. All other characters stand for themselves. -/
def escape? : List Char → Option (List Nat × List Char)
  | [] => none
  | c :: cs =>
    match letterEscape? c with
    | some unit => some ([unit], cs)
    | none =>
      if c = 'x' then (hexNumber? 2 0 cs).map fun p => ([p.1], p.2)
      else if c = 'u' then unicodeEscape? cs
      else if c = '\r' then some ([], (Text.dropStart? ['\n'] cs).getD cs)
      else if c = '\n' ∨ c = '\u2028' ∨ c = '\u2029' then some ([], cs)
      else if c = '0' then if cs.head?.any Char.isDigit then none else some ([0], cs)
      else if c.isDigit then none
      else some (utf16 c.toNat, cs)

/-! ## What an escape sequence takes -/

theorem length_le_length_units (cs : List Char) : cs.length ≤ (units cs).length := by
  induction cs with
  | nil => exact Nat.le_refl _
  | cons c cs ih =>
    have hone : 1 ≤ (utf16 c.toNat).length := by
      rw [utf16]
      split <;> simp
    rw [units, List.flatMap_cons, List.length_append, List.length_cons, Nat.add_comm]
    exact Nat.add_le_add hone ih

theorem length_utf16_le (n : Nat) : (utf16 n).length ≤ 2 := by
  rw [utf16]
  split <;> simp

/-- Some characters of a text are taken for units: no more units than they have themselves, and a
quote only alone and for itself. -/
def Takes (cs rest : List Char) (value : List Nat) : Prop :=
  ∃ source, source ≠ [] ∧ cs = source ++ rest ∧ value.length ≤ (units source).length ∧
    ('"' ∈ source → source = ['"'] ∧ value = [0x22])

theorem Takes.of_not_mem {source : List Char} {value : List Nat} (hquote : '"' ∉ source)
    (hne : source ≠ []) (hlength : value.length ≤ source.length) (rest : List Char) :
    Takes (source ++ rest) rest value :=
  ⟨source, hne, rfl, hlength.trans (length_le_length_units source), fun h => absurd h hquote⟩

theorem quote_ne_of_hexValue? {c : Char} {d : Nat} (h : Json.hexValue? c = some d) : '"' ≠ c := by
  rintro rfl
  cases h

theorem exists_of_hexNumber? {count value n : Nat} {cs rest : List Char}
    (h : hexNumber? count value cs = some (n, rest)) :
    ∃ digits, digits.length = count ∧ '"' ∉ digits ∧ cs = digits ++ rest := by
  fun_induction hexNumber? count value cs with
  | case1 value cs =>
    cases h
    exact ⟨[], rfl, List.not_mem_nil, rfl⟩
  | case2 => cases h
  | case3 value count c cs ih =>
    obtain ⟨d, hd, h⟩ := Option.bind_eq_some_iff.1 h
    obtain ⟨digits, hlength, hquote, rfl⟩ := ih d h
    exact ⟨c :: digits, congrArg (· + 1) hlength,
      List.not_mem_cons_of_ne_of_not_mem (quote_ne_of_hexValue? hd) hquote, rfl⟩

theorem exists_of_codePoint? {value n : Nat} {cs rest : List Char}
    (h : codePoint? value cs = some (n, rest)) : ∃ digits, '"' ∉ digits ∧ cs = digits ++ rest := by
  induction cs generalizing value with
  | nil => cases h
  | cons c cs ih =>
    rw [codePoint?] at h
    split at h
    next hc =>
      cases h
      exact ⟨[c], by simp [hc], rfl⟩
    next hc =>
      obtain ⟨d, hd, h⟩ := Option.bind_eq_some_iff.1 h
      split at h
      · obtain ⟨digits, hquote, rfl⟩ := ih h
        exact ⟨c :: digits,
          List.not_mem_cons_of_ne_of_not_mem (quote_ne_of_hexValue? hd) hquote, rfl⟩
      · cases h

theorem takes_unicodeEscape? {cs rest : List Char} {value : List Nat}
    (h : unicodeEscape? cs = some (value, rest)) : Takes ('u' :: cs) rest value := by
  rw [unicodeEscape?] at h
  split at h
  next behind hbrace =>
    obtain ⟨⟨n, rest⟩, hbind, ⟨⟩⟩ := Option.map_eq_some_iff.1 h
    obtain ⟨p, hfirst, hpoint⟩ := Option.bind_eq_some_iff.1 hbind
    obtain ⟨first, -, hquote, hbehind⟩ := exists_of_hexNumber? hfirst
    obtain ⟨digits, hquote', hbehind'⟩ := exists_of_codePoint? hpoint
    have hsource : 'u' :: cs = ('u' :: '\x7b' :: (first ++ digits)) ++ rest := by
      rw [Text.eq_append_of_dropStart? hbrace, hbehind, hbehind']
      simp
    rw [hsource]
    refine Takes.of_not_mem (by simp [hquote, hquote']) (List.cons_ne_nil _ _) ?_ rest
    exact (length_utf16_le n).trans (Nat.succ_le_succ (Nat.succ_le_succ (Nat.zero_le _)))
  next =>
    obtain ⟨⟨n, rest⟩, hnumber, ⟨⟩⟩ := Option.map_eq_some_iff.1 h
    obtain ⟨digits, -, hquote, rfl⟩ := exists_of_hexNumber? hnumber
    have hquote : '"' ∉ 'u' :: digits := by simp [hquote]
    exact Takes.of_not_mem hquote (List.cons_ne_nil _ _) (Nat.le_add_left 1 _) rest

/-- An escape sequence stands for no more units than it has itself, the backslash not counted, and
has a quote in it only if it is the escape sequence of the quote. -/
theorem takes_escape? {cs rest : List Char} {value : List Nat}
    (h : escape? cs = some (value, rest)) : Takes cs rest value := by
  cases cs with
  | nil => cases h
  | cons c cs =>
    -- Where the sequence is a single character that is no quote, this is all there is to say.
    have hsingle : '"' ≠ c → value.length ≤ 1 → rest = cs → Takes (c :: cs) rest value := by
      rintro hc hlength rfl
      have hquote : '"' ∉ [c] := by simpa using hc
      exact Takes.of_not_mem hquote (List.cons_ne_nil _ _) hlength rest
    rw [escape?] at h
    cases hletter : letterEscape? c with
    | some unit =>
      rw [hletter] at h
      cases h
      refine hsingle ?_ (Nat.le_refl _) rfl
      rintro rfl
      cases hletter
    | none =>
      rw [hletter] at h
      split_ifs at h with hx hu hreturn hbreak hzero hdigit hdigit'
      · obtain ⟨⟨n, rest⟩, hnumber, ⟨⟩⟩ := Option.map_eq_some_iff.1 h
        obtain ⟨digits, -, hquote, rfl⟩ := exists_of_hexNumber? hnumber
        have hquote : '"' ∉ c :: digits := by simp [hquote, hx]
        exact Takes.of_not_mem hquote (List.cons_ne_nil _ _) (Nat.le_add_left 1 _) rest
      · rw [hu]
        exact takes_unicodeEscape? h
      · cases h
        cases hfeed : Text.dropStart? ['\n'] cs with
        | none =>
          rw [hfeed] at hsingle
          exact hsingle (by simp [hreturn]) (Nat.zero_le _) rfl
        | some behind =>
          have hquote : '"' ∉ [c, '\n'] := by simp [hreturn]
          rw [Text.eq_append_of_dropStart? hfeed, Option.getD_some]
          exact Takes.of_not_mem hquote (List.cons_ne_nil _ _) (Nat.zero_le _) behind
      · cases h
        refine hsingle ?_ (Nat.zero_le _) rfl
        rintro rfl
        exact absurd hbreak (by decide)
      · cases h
        exact hsingle (by simp [hzero]) (Nat.le_refl _) rfl
      · cases h
        refine ⟨[c], List.cons_ne_nil _ _, rfl, by simp [units], ?_⟩
        intro hquote
        obtain rfl := List.mem_singleton.1 hquote
        exact ⟨rfl, rfl⟩

/-! ## Reading a literal -/

/-- The units of a string literal, read behind its opening quote, and what follows it. -/
def readLiteral (cs : List Char) : Option (List Nat × List Char) :=
  match cs with
  | [] => none
  | c :: cs =>
    if c = '"' then some ([], cs)
    else if c = '\\' then
      match _h : escape? cs with
      | none => none
      | some (value, rest) => (readLiteral rest).map fun p => (value ++ p.1, p.2)
    else if c = '\n' ∨ c = '\r' then none
    else (readLiteral cs).map fun p => (utf16 c.toNat ++ p.1, p.2)
termination_by cs.length
decreasing_by
  · obtain ⟨source, -, rfl, -⟩ := takes_escape? _h
    simp
  · simp

/-- A character that stands for itself in a literal. -/
def IsPlain (c : Char) : Prop := c ≠ '"' ∧ c ≠ '\\' ∧ c ≠ '\n' ∧ c ≠ '\r'

instance (c : Char) : Decidable (IsPlain c) := inferInstanceAs (Decidable (_ ∧ _ ∧ _ ∧ _))

theorem isPlain_or (c : Char) : IsPlain c ∨ c = '"' ∨ c = '\\' ∨ c = '\n' ∨ c = '\r' := by
  rw [IsPlain]
  tauto

theorem readLiteral_quote (cs : List Char) : readLiteral ('"' :: cs) = some ([], cs) := by
  rw [readLiteral, if_pos rfl]

theorem readLiteral_break {c : Char} (h : c = '\n' ∨ c = '\r') (cs : List Char) :
    readLiteral (c :: cs) = none := by
  rw [readLiteral]
  rcases h with rfl | rfl <;> simp

theorem readLiteral_plain {c : Char} (h : IsPlain c) (cs : List Char) :
    readLiteral (c :: cs) = (readLiteral cs).map fun p => (utf16 c.toNat ++ p.1, p.2) := by
  rw [readLiteral, if_neg h.1, if_neg h.2.1, if_neg (not_or.2 h.2.2)]

theorem exists_of_readLiteral_backslash {cs rest : List Char} {value : List Nat}
    (h : readLiteral ('\\' :: cs) = some (value, rest)) :
    ∃ first behind tail, escape? cs = some (first, behind) ∧
      readLiteral behind = some (tail, rest) ∧ value = first ++ tail := by
  rw [readLiteral, if_neg (by decide), if_pos rfl] at h
  split at h
  next => cases h
  next first behind hescape =>
    obtain ⟨⟨tail, rest⟩, htail, ⟨⟩⟩ := Option.map_eq_some_iff.1 h
    exact ⟨first, behind, tail, hescape, htail, rfl⟩

theorem units_cons (c : Char) (cs : List Char) : units (c :: cs) = utf16 c.toNat ++ units cs :=
  List.flatMap_cons

theorem units_append (cs ds : List Char) : units (cs ++ ds) = units cs ++ units ds :=
  List.flatMap_append

theorem quote_not_mem_utf16 {c : Char} (h : c ≠ '"') : 0x22 ∉ utf16 c.toNat := by
  intro hmem
  rw [utf16] at hmem
  split at hmem
  · rw [List.mem_singleton] at hmem
    exact h (Char.toNat_inj.1 hmem.symm)
  · simp only [List.mem_cons, List.not_mem_nil, or_false] at hmem
    omega

theorem quote_not_mem_units {cs : List Char} (h : '"' ∉ cs) : 0x22 ∉ units cs := by
  intro hmem
  obtain ⟨c, hc, hunit⟩ := List.mem_flatMap.1 hmem
  exact quote_not_mem_utf16 (fun heq => h (heq ▸ hc)) hunit

/-! ## Units that lag behind -/

/-- Where less was read than was expected, the rest that is expected is longer than what is left
of the text. -/
theorem exists_lag {value tail full last : List Nat} (h : value ++ tail = full ++ last)
    (hlength : value.length < full.length) (hquote : 0x22 ∉ full) :
    ∃ lag, lag ≠ [] ∧ 0x22 ∉ lag ∧ tail = lag ++ last := by
  refine ⟨full.drop value.length, ?_, fun hmem => hquote (List.mem_of_mem_drop hmem), ?_⟩
  · intro hnil
    exact absurd hlength (Nat.not_lt.2 (List.drop_eq_nil_iff.1 hnil))
  · have hdrop := congrArg (List.drop value.length) h
    rwa [List.drop_left, List.drop_append_of_le_length hlength.le] at hdrop

/-- Behind an escape sequence the units that were read lag behind the name. -/
theorem exists_lag_of_backslash {name behind rest : List Char} {lag : List Nat}
    (hquote : 0x22 ∉ lag)
    (h : readLiteral ('\\' :: (name ++ '"' :: behind)) = some (lag ++ units ('\\' :: name), rest)) :
    ∃ later lag', later.length ≤ name.length ∧ lag' ≠ [] ∧ 0x22 ∉ lag' ∧
      readLiteral (later ++ '"' :: behind) = some (lag' ++ units later, rest) := by
  obtain ⟨first, after, tail, hescape, htail, hvalue⟩ := exists_of_readLiteral_backslash h
  obtain ⟨source, hne, hsource, hlength, halone⟩ := takes_escape? hescape
  have hbackslash : 0x22 ∉ lag ++ [0x5C] := by simpa using hquote
  have hvalue : first ++ tail = (lag ++ [0x5C]) ++ units name := by
    rw [← hvalue, List.append_assoc]
    rfl
  by_cases hmem : '"' ∈ source
  · -- The sequence of the quote stands for a quote, where a unit of the lag or a backslash is due.
    rw [(halone hmem).2, List.singleton_append] at hvalue
    cases hdue : lag ++ [0x5C] with
    | nil => exact absurd hdue (by simp)
    | cons unit due =>
      rw [hdue, List.cons_append] at hvalue
      rw [hdue, ← (List.cons.inj hvalue).1] at hbackslash
      exact absurd List.mem_cons_self hbackslash
  · -- Any other sequence ends within the name.
    obtain ⟨later, rfl, rfl⟩ :
        ∃ later, name = source ++ later ∧ after = later ++ '"' :: behind := by
      rcases List.append_eq_append_iff.1 hsource with
        ⟨beyond, hbeyond, hrest⟩ | ⟨later, hname, hrest⟩
      · cases beyond with
        | nil => exact ⟨[], by simpa using hbeyond.symm, hrest.symm⟩
        | cons c beyond =>
          rw [List.cons_append, List.cons.injEq] at hrest
          rw [hbeyond, ← hrest.1] at hmem
          exact absurd (List.mem_append_right name List.mem_cons_self) hmem
      · exact ⟨later, hname, hrest⟩
    rw [units_append, ← List.append_assoc] at hvalue
    obtain ⟨lag', hlag', hquote', rfl⟩ := exists_lag hvalue
      (by simp only [List.length_append, List.length_singleton]; omega)
      (by simpa using ⟨hquote, quote_not_mem_units hmem⟩)
    refine ⟨later, lag', ?_, hlag', hquote', htail⟩
    rw [List.length_append]
    exact Nat.le_add_left _ _

/-- Units that lag behind never catch up. -/
theorem readLiteral_ne_of_lag {name : List Char} {lag : List Nat} (hlag : lag ≠ [])
    (hquote : 0x22 ∉ lag) (behind rest : List Char) :
    readLiteral (name ++ '"' :: behind) ≠ some (lag ++ units name, rest) := by
  induction hn : name.length using Nat.strong_induction_on generalizing name lag with
  | _ n ih =>
    intro h
    cases name with
    | nil =>
      rw [List.nil_append, readLiteral_quote] at h
      cases lag with
      | nil => exact hlag rfl
      | cons => cases h
    | cons c name =>
      rw [List.length_cons] at hn
      rw [List.cons_append] at h
      rcases isPlain_or c with hplain | rfl | rfl | hbreak
      · rw [readLiteral_plain hplain] at h
        obtain ⟨⟨tail, rest⟩, htail, heq⟩ := Option.map_eq_some_iff.1 h
        obtain ⟨hvalue, rfl⟩ := Prod.mk.inj heq
        rw [units_cons, ← List.append_assoc] at hvalue
        obtain ⟨lag', hlag', hquote', rfl⟩ := exists_lag hvalue
          (by
            rw [List.length_append]
            exact Nat.lt_add_of_pos_left (List.length_pos_of_ne_nil hlag))
          (by simpa using ⟨hquote, quote_not_mem_utf16 hplain.1⟩)
        exact ih name.length (by omega) hlag' hquote' rfl htail
      · rw [readLiteral_quote] at h
        cases lag with
        | nil => exact hlag rfl
        | cons => cases h
      · obtain ⟨later, lag', hlength, hlag', hquote', hlater⟩ := exists_lag_of_backslash hquote h
        exact ih later.length (by omega) hlag' hquote' rfl hlater
      · rw [readLiteral_break hbreak] at h
        cases h

/-! ## Literals that are read as they stand -/

theorem readLiteral_of_plain {name : List Char} (h : ∀ c ∈ name, IsPlain c) (behind : List Char) :
    readLiteral (name ++ '"' :: behind) = some (units name, behind) := by
  induction name with
  | nil => exact readLiteral_quote behind
  | cons c name ih =>
    rw [List.forall_mem_cons] at h
    rw [List.cons_append, readLiteral_plain h.1, ih h.2]
    rfl

theorem plain_of_readLiteral {name behind rest : List Char}
    (h : readLiteral (name ++ '"' :: behind) = some (units name, rest)) :
    ∀ c ∈ name, IsPlain c := by
  induction name with
  | nil => exact List.forall_mem_nil _
  | cons c name ih =>
    rw [List.cons_append] at h
    rcases isPlain_or c with hplain | rfl | rfl | hbreak
    · rw [readLiteral_plain hplain] at h
      obtain ⟨p, htail, heq⟩ := Option.map_eq_some_iff.1 h
      obtain ⟨hvalue, rfl⟩ := Prod.mk.inj heq
      have htailValue : p.1 = units name :=
        List.append_cancel_left (hvalue.trans (units_cons c name))
      rw [List.forall_mem_cons]
      refine ⟨hplain, ih ?_⟩
      rw [htail, ← htailValue]
    · rw [readLiteral_quote] at h
      cases h
    · obtain ⟨later, lag, -, hlag, hquote, hlater⟩ :=
        exists_lag_of_backslash (List.not_mem_nil : _ ∉ ([] : List Nat)) h
      exact absurd hlater (readLiteral_ne_of_lag hlag hquote behind rest)
    · rw [readLiteral_break hbreak] at h
      cases h

theorem length_of_readLiteral {cs rest : List Char} {value : List Nat}
    (h : readLiteral cs = some (value, rest)) : rest.length < cs.length := by
  induction hn : cs.length using Nat.strong_induction_on generalizing cs value with
  | _ n ih =>
    cases cs with
    | nil =>
      rw [readLiteral] at h
      cases h
    | cons c cs =>
      rw [List.length_cons] at hn
      rcases isPlain_or c with hplain | rfl | rfl | hbreak
      · rw [readLiteral_plain hplain] at h
        obtain ⟨⟨tail, rest⟩, htail, ⟨⟩⟩ := Option.map_eq_some_iff.1 h
        have := ih cs.length (by omega) htail rfl
        omega
      · rw [readLiteral_quote] at h
        cases h
        omega
      · obtain ⟨first, after, tail, hescape, htail, -⟩ := exists_of_readLiteral_backslash h
        obtain ⟨source, -, rfl, -⟩ := takes_escape? hescape
        rw [List.length_append] at hn
        have := ih after.length (by omega) htail rfl
        omega
      · rw [readLiteral_break hbreak] at h
        cases h

/-! ## Members of the JSON object -/

/-- The key of a member of the JSON object, and what follows the member. -/
def readMember? (cs : List Char) : Option (List Nat × List Char) :=
  (Text.dropStart? "json[\"".toList cs).bind fun cs =>
    (readLiteral cs).bind fun p => (Text.dropStart? [']'] p.2).map fun rest => (p.1, rest)

theorem exists_of_readMember? {cs rest : List Char} {key : List Nat}
    (h : readMember? cs = some (key, rest)) :
    ∃ behind, cs = "json[\"".toList ++ behind ∧ readLiteral behind = some (key, ']' :: rest) := by
  obtain ⟨behind, hstart, h⟩ := Option.bind_eq_some_iff.1 h
  obtain ⟨⟨key, after⟩, hliteral, h⟩ := Option.bind_eq_some_iff.1 h
  obtain ⟨rest, hend, ⟨⟩⟩ := Option.map_eq_some_iff.1 h
  have hafter : after = ']' :: rest := Text.eq_append_of_dropStart? hend
  exact ⟨behind, Text.eq_append_of_dropStart? hstart, hafter ▸ hliteral⟩

/-- The keys of a chain of look-ups, and what follows the chain. -/
def readChain? (cs : List Char) : Option (List (List Nat) × List Char) :=
  match _h : readMember? cs with
  | none => none
  | some (key, rest) =>
    match _h' : Text.dropStart? " ?? ".toList rest with
    | none => some ([key], rest)
    | some behind => (readChain? behind).map fun p => (key :: p.1, p.2)
termination_by cs.length
decreasing_by
  obtain ⟨literal, rfl, hliteral⟩ := exists_of_readMember? _h
  have hlength := length_of_readLiteral hliteral
  rw [Text.eq_append_of_dropStart? _h'] at hlength
  simp only [List.length_cons, List.length_append] at hlength ⊢
  omega

theorem readChain?_eq {cs rest : List Char} {key : List Nat}
    (h : readMember? cs = some (key, rest)) :
    readChain? cs =
      match Text.dropStart? " ?? ".toList rest with
      | none => some ([key], rest)
      | some behind => (readChain? behind).map fun p => (key :: p.1, p.2) := by
  rw [readChain?]
  split
  next hnone =>
    rw [h] at hnone
    cases hnone
  next hmember =>
    rw [h] at hmember
    cases hmember
    split <;> simp_all

/-- A name that stands for itself in a literal. -/
def PlainName (name : String) : Prop := Text.All IsPlain name

instance (name : String) : Decidable (PlainName name) :=
  inferInstanceAs (Decidable (Text.All IsPlain name))

theorem toList_jsonMember (name : String) (behind : List Char) :
    (jsonMember name).toList ++ behind =
      "json[\"".toList ++ (name.toList ++ '"' :: ']' :: behind) := by
  simp [jsonMember, inQuotes]

theorem PlainName.readMember? {name : String} (h : PlainName name) (behind : List Char) :
    readMember? ((jsonMember name).toList ++ behind) = some (units name.toList, behind) := by
  rw [toList_jsonMember, Script.readMember?, Text.dropStart?_append, Option.bind_some,
    readLiteral_of_plain h, Option.bind_some]
  rfl

theorem plainName_of_readMember? {name : String} {behind rest : List Char}
    (h : readMember? ((jsonMember name).toList ++ behind) = some (units name.toList, rest)) :
    PlainName name := by
  obtain ⟨literal, hstart, hliteral⟩ := exists_of_readMember? h
  rw [toList_jsonMember] at hstart
  rw [← List.append_cancel_left hstart] at hliteral
  exact plain_of_readLiteral hliteral

/-- A chain of look-ups with the semicolon behind it. -/
def chainText (names : List String) : List Char :=
  (" ?? ".intercalate (names.map jsonMember)).toList ++ [';']

theorem chainText_singleton (name : String) :
    chainText [name] = (jsonMember name).toList ++ [';'] := by
  simp [chainText]

theorem chainText_cons {names : List String} (h : names ≠ []) (name : String) :
    chainText (name :: names) = (jsonMember name).toList ++ (" ?? ".toList ++ chainText names) := by
  have hne : names.map jsonMember ≠ [] := by simpa using h
  rw [chainText, List.map_cons, String.intercalate_cons_of_ne_nil hne]
  simp [chainText]

theorem readChain?_of_plain {names : List String} (hne : names ≠ [])
    (h : ∀ name ∈ names, PlainName name) :
    readChain? (chainText names) = some (names.map fun name => units name.toList, [';']) := by
  induction names with
  | nil => exact absurd rfl hne
  | cons name names ih =>
    rw [List.forall_mem_cons] at h
    by_cases hnames : names = []
    · subst hnames
      rw [chainText_singleton, readChain?_eq (h.1.readMember? _)]
      rfl
    · rw [chainText_cons hnames, readChain?_eq (h.1.readMember? _), Text.dropStart?_append]
      simp only [ih hnames h.2]
      rfl

theorem exists_of_readChain? {cs rest : List Char} {key : List Nat} {keys : List (List Nat)}
    (h : readChain? cs = some (key :: keys, rest)) :
    ∃ behind, readMember? cs = some (key, behind) := by
  cases hmember : readMember? cs with
  | none =>
    rw [readChain?] at h
    split at h <;> simp_all
  | some p =>
    rw [readChain?_eq hmember] at h
    split at h
    · cases h
      exact ⟨_, rfl⟩
    · obtain ⟨q, -, ⟨⟩⟩ := Option.map_eq_some_iff.1 h
      exact ⟨_, rfl⟩

theorem plain_of_readChain? {names : List String} {rest : List Char}
    (h : readChain? (chainText names) = some (names.map fun name => units name.toList, rest)) :
    ∀ name ∈ names, PlainName name := by
  induction names generalizing rest with
  | nil => exact List.forall_mem_nil _
  | cons name names ih =>
    obtain ⟨behind, hmember⟩ := exists_of_readChain? h
    rw [List.forall_mem_cons]
    by_cases hnames : names = []
    · subst hnames
      rw [chainText_singleton] at hmember
      exact ⟨plainName_of_readMember? hmember, List.forall_mem_nil _⟩
    · rw [chainText_cons hnames] at h hmember
      have hplain := plainName_of_readMember? hmember
      rw [readChain?_eq (hplain.readMember? _), Text.dropStart?_append] at h
      obtain ⟨p, hchain, heq⟩ := Option.map_eq_some_iff.1 h
      rw [Prod.mk.injEq, List.map_cons, List.cons.injEq] at heq
      have hkeys : p = (names.map fun name => units name.toList, p.2) := Prod.ext heq.1.2 rfl
      exact ⟨hplain, ih (hchain.trans (congrArg some hkeys))⟩

/-! ## The lines that name keys -/

/-- The key that a line assigns a value to. -/
def assignedKey? : Line → Option (List Nat)
  | .line c =>
    (readMember? c.text.toList).bind fun p => (Text.dropStart? " = ".toList p.2).map fun _ => p.1
  | _ => none

/-- The keys of the look-ups that a line gives a constant the value of. -/
def lookedUpKeys? (constant : String) : Line → Option (List (List Nat))
  | .line c =>
    (Text.dropStart? ("const " ++ constant ++ " = ").toList c.text.toList).bind fun cs =>
      (readChain? cs).bind fun p => if p.2 = [';'] then some p.1 else none
  | _ => none

/-- The key under which generated code writes a field: the one of the statement between the
condition and the end of its block. -/
def writtenKey? (options : Options) (field : Field) : Option (List Nat) :=
  (writeFieldJson options field)[1]?.bind assignedKey?

/-- The keys under which generated code looks for a field. -/
def readKeys? (language : Language) (field : Field) : Option (List (List Nat)) :=
  (readFieldJson language field).head?.bind (lookedUpKeys? (jsonVariable field.info))

/-- A script reads the keys that generated code has for a field as the names of the field. -/
def NamesKeys (options : Options) (field : Field) : Prop :=
  writtenKey? options field =
      some (units (field.info.outputName options.protoNames).toList) ∧
    readKeys? options.language field = some (field.info.readNames.map fun name => units name.toList)

theorem writtenKey?_eq (options : Options) (field : Field) :
    ∃ behind, writtenKey? options field =
      (readMember? ((jsonMember (field.info.outputName options.protoNames)).toList ++
        (" = ".toList ++ behind))).bind
          fun p => (Text.dropStart? " = ".toList p.2).map fun _ => p.1 := by
  refine ⟨((fieldToJson options.language field (property field)).text ++ ";").toList, ?_⟩
  have htext : (code [jsonMember (field.info.outputName options.protoNames), " = ",
        fieldToJson options.language field (property field), ";"]).text.toList =
      (jsonMember (field.info.outputName options.protoNames)).toList ++ (" = ".toList ++
        ((fieldToJson options.language field (property field)).text ++ ";").toList) := by
    simp
  rw [← htext]
  rfl

theorem readKeys?_eq (language : Language) (field : Field) :
    readKeys? language field = (readChain? (chainText field.info.readNames)).bind
      fun p => if p.2 = [';'] then some p.1 else none := by
  have htext : (code ["const ", jsonVariable field.info, " = ", jsonLookup field.info,
        ";"]).text.toList =
      ("const " ++ jsonVariable field.info ++ " = ").toList ++ chainText field.info.readNames := by
    simp [jsonLookup, chainText]
  rw [readKeys?, readFieldJson, List.head?_cons, Option.bind_some, line, lookedUpKeys?, htext,
    Text.dropStart?_append, Option.bind_some]

theorem readNames_ne_nil (info : FieldInfo) : info.readNames ≠ [] := by
  have hmem : info.protoName ∈ info.readNames := by
    rw [FieldInfo.readNames, List.mem_eraseDups]
    simp
  exact List.ne_nil_of_mem hmem

theorem namesKeys_iff (options : Options) (field : Field) :
    NamesKeys options field ↔
      PlainName (field.info.outputName options.protoNames) ∧
        ∀ name ∈ field.info.readNames, PlainName name := by
  obtain ⟨behind, hwritten⟩ := writtenKey?_eq options field
  rw [NamesKeys, hwritten, readKeys?_eq]
  refine and_congr ⟨?_, ?_⟩ ⟨?_, ?_⟩
  · intro h
    obtain ⟨⟨key, rest⟩, hmember, h⟩ := Option.bind_eq_some_iff.1 h
    obtain ⟨_, -, rfl⟩ := Option.map_eq_some_iff.1 h
    exact plainName_of_readMember? hmember
  · intro h
    rw [h.readMember?, Option.bind_some, Text.dropStart?_append]
    rfl
  · intro h
    obtain ⟨⟨keys, rest⟩, hchain, h⟩ := Option.bind_eq_some_iff.1 h
    split at h
    · cases h
      exact plain_of_readChain? hchain
    · cases h
  · intro h
    rw [readChain?_of_plain (readNames_ne_nil field.info) h]
    rfl

/-! ## Fields of a schema -/

theorem isPlain_of_isUpper {c : Char} (h : c.isUpper) : IsPlain c := by
  refine ⟨?_, ?_, ?_, ?_⟩
  all_goals
    rintro rfl
    exact absurd h (by decide)

/-- The names of a resolved field are those of its descriptor. -/
theorem names_of_field {ctx : FileContext} {messageName : String} {oneofs : List String}
    {nested : List Decl} {comment : Option String} {descriptor : FieldDescriptor}
    {table table' : ImportTable} {field : Field}
    (h : (ctx.field messageName oneofs nested comment descriptor).run table =
      .ok (field, table')) :
    field.info.protoName = descriptor.name ∧
      field.info.jsonName = descriptor.jsonName.getD (Text.camelCase descriptor.name) ∧
      field.info.customJsonName =
        if field.info.jsonName = Text.camelCase descriptor.name then none
        else some field.info.jsonName := by
  obtain ⟨kind, t, shape, -, -, rfl | ⟨entry, key, value, -, -, -, rfl⟩⟩ :=
    FileContext.exists_of_field h
  all_goals exact ⟨rfl, rfl, rfl⟩

/-- A field is looked for under its JSON name, its name in camel case and its name. -/
theorem mem_readNames_iff_of_field {ctx : FileContext} {messageName : String}
    {oneofs : List String} {nested : List Decl} {comment : Option String}
    {descriptor : FieldDescriptor} {table table' : ImportTable} {field : Field}
    (h : (ctx.field messageName oneofs nested comment descriptor).run table =
      .ok (field, table')) (name : String) :
    name ∈ field.info.readNames ↔
      name = field.info.jsonName ∨ name = Text.camelCase descriptor.name ∨
        name = descriptor.name := by
  obtain ⟨hproto, -, hcustom⟩ := names_of_field h
  rw [FieldInfo.readNames, List.mem_eraseDups, hcustom, hproto]
  split
  next heq =>
    simp only [Option.toList_none, List.nil_append, List.mem_cons, List.not_mem_nil, or_false]
    rw [heq]
    tauto
  next => simp

/-- A script reads the keys that generated code has for a field, the one that it writes and those
that it looks for in their order, as the names of the field just if neither the name nor the JSON
name that the schema gives it has a quote, a backslash, a line feed or a carriage return. -/
theorem namesKeys_iff_of_field {ctx : FileContext} {messageName : String} {oneofs : List String}
    {nested : List Decl} {comment : Option String} {descriptor : FieldDescriptor}
    {table table' : ImportTable} {field : Field}
    (h : (ctx.field messageName oneofs nested comment descriptor).run table =
      .ok (field, table')) (options : Options) :
    NamesKeys options field ↔
      PlainName descriptor.name ∧ ∀ name, descriptor.jsonName = some name → PlainName name := by
  obtain ⟨hproto, hjson, -⟩ := names_of_field h
  have hread := mem_readNames_iff_of_field h
  rw [namesKeys_iff]
  constructor
  · rintro ⟨-, hplain⟩
    refine ⟨hplain _ ((hread _).2 (.inr (.inr rfl))), ?_⟩
    intro name hname
    refine hplain _ ((hread _).2 (.inl ?_))
    rw [hjson, hname, Option.getD_some]
  · rintro ⟨hname, hgiven⟩
    have hcamel : PlainName (Text.camelCase descriptor.name) :=
      Text.all_camelCase (fun _ => isPlain_of_isUpper) hname
    have hjsonPlain : PlainName field.info.jsonName := by
      rw [hjson]
      cases hd : descriptor.jsonName with
      | none => exact hcamel
      | some name => exact hgiven name hd
    constructor
    · rw [FieldInfo.outputName, hproto]
      split
      · exact hname
      · exact hjsonPlain
    · intro name hmem
      rcases (hread name).1 hmem with rfl | rfl | rfl
      · exact hjsonPlain
      · exact hcamel
      · exact hname

/-- A field with a JSON name of its own. -/
def hatSize (jsonName : String) : FieldDescriptor :=
  { name := "hat_size", number := 1, type := .string, jsonName := some jsonName }

/-- What the field is resolved in. -/
def hatContext : FileContext :=
  { scope := ⟨["hat.proto"], [[]], []⟩, file := "hat.proto", package := "shop", dialect := .proto3
    remarks := [] }

/-- A name with blanks and an apostrophe is read as it stands. -/
theorem namesKeys_apostrophe :
    ∃ field table, (hatContext.field "shop.Hat" [] [] none (hatSize "the hat's size")).run
        { file := "hat.proto", language := .typeScript } = .ok (field, table) ∧
      field.info.readNames = ["the hat's size", "hatSize", "hat_size"] ∧
      NamesKeys { language := .typeScript } field := by
  have hrun : ∃ field table, (hatContext.field "shop.Hat" [] [] none
      (hatSize "the hat's size")).run { file := "hat.proto", language := .typeScript } =
        .ok (field, table) ∧ field.info.readNames = ["the hat's size", "hatSize", "hat_size"] :=
    ⟨_, _, rfl, by decide +kernel⟩
  obtain ⟨field, table, hrun, hnames⟩ := hrun
  refine ⟨field, table, hrun, hnames, (namesKeys_iff_of_field hrun _).2 ⟨by decide +kernel, ?_⟩⟩
  rintro _ ⟨⟩
  decide +kernel

/-- A JSON name with a quote in it is written as it stands, and a script does not read it back. -/
theorem not_namesKeys_quote :
    ∃ field table, (hatContext.field "shop.Hat" [] [] none (hatSize "hat\"size")).run
        { file := "hat.proto", language := .javaScript } = .ok (field, table) ∧
      lineTexts "  " 0 (writeFieldJson {} field) =
        ["if (msg.hatSize) \x7b\n", "  json[\"hat\"size\"] = msg.hatSize;\n", "\x7d\n"] ∧
      ¬NamesKeys {} field := by
  have hrun : ∃ field table, (hatContext.field "shop.Hat" [] [] none (hatSize "hat\"size")).run
      { file := "hat.proto", language := .javaScript } = .ok (field, table) ∧
        lineTexts "  " 0 (writeFieldJson {} field) =
          ["if (msg.hatSize) \x7b\n", "  json[\"hat\"size\"] = msg.hatSize;\n", "\x7d\n"] :=
    ⟨_, _, rfl, by decide +kernel⟩
  obtain ⟨field, table, hrun, htexts⟩ := hrun
  obtain ⟨-, hjson, -⟩ := names_of_field hrun
  refine ⟨field, table, hrun, htexts, fun hkeys => ?_⟩
  have hplain : PlainName field.info.jsonName := ((namesKeys_iff {} field).1 hkeys).1
  rw [hjson] at hplain
  exact absurd hplain (by decide +kernel)

end ProtoStub.Script
