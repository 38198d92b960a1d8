import ProtoStub.TypeRef

/-
  The lines of a generated module. A line is made of fragments that tell names of the
  runtime library and references to types from other text, and says by its kind how the
  depth changes: an opening line deepens what follows, a closing line ends that.
-/

namespace ProtoStub.Script

/-- The names that generated modules take from the runtime library. -/
inductive RuntimeName where
  | binaryReader
  | binaryWriter
  | byteSource
  | clientConfiguration
  | jsonRequest
  | binaryRequest
  | base64Decoder
  | base64Encoder
  deriving DecidableEq, Repr

/-- The spelling of a name of the runtime library. -/
def RuntimeName.text : RuntimeName → String
  | binaryReader => "BinaryReader"
  | binaryWriter => "BinaryWriter"
  | byteSource => "ByteSource"
  | clientConfiguration => "ClientConfiguration"
  | jsonRequest => "JSONrequest"
  | binaryRequest => "PBrequest"
  | base64Decoder => "decodeBase64Bytes"
  | base64Encoder => "encodeBase64Bytes"

/-- A part of a line. -/
inductive Fragment where
  | plain (s : String)
  | runtime (name : RuntimeName)
  /-- A type by its local name. -/
  | reference (target : TypeRef)
  deriving DecidableEq, Repr

/-- The spelling of a fragment. -/
def Fragment.text : Fragment → String
  | plain s => s
  | runtime name => name.text
  | reference target => target.localName

/-- The text of a line, or a part of it. -/
abbrev Code : Type := List Fragment

instance : Coe String Code := ⟨fun s => [.plain s]⟩

/-- The spelling of code. -/
def Code.text (code : Code) : String := String.join (code.map Fragment.text)

/-- Code that is made of several parts. -/
def code (parts : List Code) : Code := parts.flatten

/-- Parts of code with a separator between them. -/
def joined (sep : String) (parts : List Code) : Code := code (parts.intersperse sep)

namespace Code

theorem text_append (c d : Code) : text (c ++ d) = text c ++ text d := by
  rw [text, List.map_append, String.join_append, text, text]

@[simp] theorem text_plain (s : String) : text [.plain s] = s := by
  simp [text, Fragment.text]

@[simp] theorem text_code_nil : text (code []) = "" := rfl

@[simp] theorem text_code_cons (c : Code) (parts : List Code) :
    text (code (c :: parts)) = text c ++ text (code parts) := by
  rw [code, List.flatten_cons, text_append, code]

end Code

/-- A reference to a type. -/
def ref (target : TypeRef) : Code := [.reference target]

/-- A name of the runtime library. -/
def runtime (name : RuntimeName) : Code := [.runtime name]

/-- A text in double quotes, as it stands. -/
def inQuotes (s : String) : String := "\"" ++ s ++ "\""

/-- A line of a module. -/
inductive Line where
  | blank
  | line (code : Code)
  /-- A line that deepens what follows. -/
  | opening (code : Code)
  /-- A line that ends a block and begins another. -/
  | middle (code : Code)
  /-- A line that ends a block. -/
  | closing (code : Code)
  deriving DecidableEq, Repr

/-- A line that is made of several parts. -/
def line (parts : List Code) : Line := .line (code parts)

/-- Lines between an opening and a closing line. -/
def block (head : List Code) (body : List Line) (tail : String) : List Line :=
  .opening (code head) :: body ++ [.closing tail]

/-- A line at a depth. -/
def indented (indent : String) (depth : Nat) (code : Code) : String :=
  String.join (List.replicate depth indent) ++ code.text ++ "\n"

/-- The texts of lines that start at a depth. -/
def lineTexts (indent : String) : Nat → List Line → List String
  | _, [] => []
  | depth, .blank :: rest => "\n" :: lineTexts indent depth rest
  | depth, .line c :: rest => indented indent depth c :: lineTexts indent depth rest
  | depth, .opening c :: rest => indented indent depth c :: lineTexts indent (depth + 1) rest
  | depth, .middle c :: rest => indented indent (depth - 1) c :: lineTexts indent depth rest
  | depth, .closing c :: rest =>
    indented indent (depth - 1) c :: lineTexts indent (depth - 1) rest

/-- The text of lines. -/
def render (indent : String) (lines : List Line) : String :=
  String.join (lineTexts indent 0 lines)

end ProtoStub.Script
