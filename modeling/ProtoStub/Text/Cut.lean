/-
  Cutting a text at characters: all pieces between separators, the two sides of
  the first separator, the lines of a comment, and a text without a given start
  or end. Each function works on the list of characters and loses nothing but
  the separators it names.
-/

namespace ProtoStub.Text

/-- The pieces of a list between the occurrences of `sep`; there is one more of them
than there are separators. -/
def splitAtEach (sep : Char) : List Char → List (List Char)
  | [] => [[]]
  | c :: cs =>
    if c = sep then [] :: splitAtEach sep cs
    else
      match splitAtEach sep cs with
      | [] => [[c]]
      | p :: ps => (c :: p) :: ps

/-- The pieces of a text between the occurrences of `sep`. -/
def pieces (sep : Char) (s : String) : List String :=
  (splitAtEach sep s.toList).map String.ofList

/-- The two sides of the first `sep`, if there is one. -/
def cutAtFirst (sep : Char) : List Char → Option (List Char × List Char)
  | [] => none
  | c :: cs =>
    if c = sep then some ([], cs)
    else (cutAtFirst sep cs).map fun p => (c :: p.1, p.2)

/-- The two sides of the first `sep` of a text, if there is one. -/
def cut? (sep : Char) (s : String) : Option (String × String) :=
  (cutAtFirst sep s.toList).map fun p => (String.ofList p.1, String.ofList p.2)

/-- What follows `start` in `cs`, if `cs` begins with it. -/
def dropStart? : (start cs : List Char) → Option (List Char)
  | [], cs => some cs
  | _ :: _, [] => none
  | a :: start, c :: cs => if a = c then dropStart? start cs else none

/-- What follows `start` in a text, if the text begins with it. -/
def afterStart? (start s : String) : Option String :=
  (dropStart? start.toList s.toList).map String.ofList

/-- What precedes `finish` in a text, if the text ends with it. -/
def beforeEnd? (finish s : String) : Option String :=
  (dropStart? finish.toList.reverse s.toList.reverse).map fun r => String.ofList r.reverse

/-- A name without one leading dot: `.a.B` and `a.B` name the same thing. -/
def withoutDot (name : String) : String :=
  (afterStart? "." name).getD name

/-- The lines of a list of characters, given the current line's characters in reverse.
A line ends at a line feed, which takes a carriage return before it along; a last
line need not be ended, and an empty rest is no line. -/
def linesFrom : (current cs : List Char) → List (List Char)
  | [], [] => []
  | current, [] => [current.reverse]
  | current, c :: cs =>
    if c = '\n' then
      (match current with
        | '\r' :: before => before.reverse
        | whole => whole.reverse) :: linesFrom [] cs
    else linesFrom (c :: current) cs

/-- The lines of a text. -/
def lines (s : String) : List String :=
  (linesFrom [] s.toList).map String.ofList

end ProtoStub.Text
