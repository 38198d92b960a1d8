/-
  White space. A character is blank when it has Unicode's `White_Space` property;
  trimming removes blanks from the ends of a text and touches nothing between.
-/

namespace ProtoStub.Text

/-- The code points with the `White_Space` property, as closed ranges in increasing order. -/
def blankRanges : List (Nat × Nat) :=
  [(0x09, 0x0D), (0x20, 0x20), (0x85, 0x85), (0xA0, 0xA0), (0x1680, 0x1680),
   (0x2000, 0x200A), (0x2028, 0x2029), (0x202F, 0x202F), (0x205F, 0x205F), (0x3000, 0x3000)]

/-- Whether a character is white space. -/
def isBlank (c : Char) : Bool :=
  blankRanges.any fun r => r.1 ≤ c.toNat && c.toNat ≤ r.2

/-- Removes the blanks at the end of a list of characters. -/
def trimEndChars (cs : List Char) : List Char :=
  (cs.reverse.dropWhile isBlank).reverse

/-- Removes the blanks at both ends of a list of characters. -/
def trimChars (cs : List Char) : List Char :=
  trimEndChars (cs.dropWhile isBlank)

/-- Removes the white space at the end of a text. -/
def trimEnd (s : String) : String :=
  String.ofList (trimEndChars s.toList)

/-- Removes the white space at both ends of a text. -/
def trim (s : String) : String :=
  String.ofList (trimChars s.toList)

/-- Every blank of ASCII is a blank. -/
theorem isBlank_of_isWhitespace {c : Char} (h : c.isWhitespace = true) : isBlank c = true := by
  simp only [Char.isWhitespace, Bool.or_eq_true, decide_eq_true_eq] at h
  rcases h with ((h | h) | h) | h <;> subst h <;> decide

end ProtoStub.Text
