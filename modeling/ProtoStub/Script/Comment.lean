import ProtoStub.Script.Line
import ProtoStub.Text.Blank
import ProtoStub.Text.Cut

/-
  Comments in generated modules: documentation blocks and the banners between sections.
-/

namespace ProtoStub.Script

/-- Characters in which no `*` is followed by a slash: a backslash comes between the two. -/
def guardEnd : List Char → List Char
  | [] => []
  | '*' :: '/' :: rest => '*' :: '\\' :: '/' :: guardEnd rest
  | c :: rest => c :: guardEnd rest

/-- What a documentation block shows of a line of a comment. One space at the start is the
one that separates the text from the comment mark. -/
def commentText (s : String) : String :=
  String.ofList (guardEnd (Text.trimEnd ((Text.afterStart? " " s).getD s)).toList)

/-- A line inside a documentation block. -/
def documentationLine (s : String) : Line :=
  line [if s = "" then " *" else " * " ++ s]

/-- A documentation block. -/
def documentation (texts : List String) : List Line :=
  line ["/**"] :: texts.map documentationLine ++ [line [" */"]]

/-- The documentation block of a comment, if there is one. -/
def comment : Option String → List Line
  | none => []
  | some s => documentation ((Text.lines s).map commentText)

/-- The block that marks a member which is not for users. -/
def privateMark : List Line := documentation ["@private"]

/-- The width of a banner between its marks. -/
def bannerWidth : Nat := 40

/-- As many spaces. -/
def spaces (n : Nat) : String := String.ofList (List.replicate n ' ')

/-- The title of a banner, in the middle of its line. Its width is counted in bytes. -/
def bannerTitle (title : String) : String :=
  if bannerWidth ≤ title.utf8ByteSize then "// " ++ title ++ " //"
  else
    let free := bannerWidth - title.utf8ByteSize
    "//" ++ spaces (free / 2) ++ title ++ spaces (free - free / 2) ++ "//"

/-- The line above and below the title of a banner. -/
def bannerRule : String := "//" ++ String.ofList (List.replicate bannerWidth '=') ++ "//"

/-- A banner between sections. -/
def banner (title : String) : List Line :=
  [line [bannerRule], line [bannerTitle title], line [bannerRule], .blank]

end ProtoStub.Script
