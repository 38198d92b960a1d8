import ProtoStub.Json.Lexer

/-
  Reading JSON. The tokens drive a machine with a stack of the arrays and objects that
  are open; no more than 127 of them may be open at once. Of two members with one name
  the later counts.
-/

namespace ProtoStub.Json

/-- An open array or object, with what it holds so far in reverse. -/
inductive Frame where
  | array (items : List Json)
  | object (members : List (String × Json))
  /-- An object with the name of the member whose value comes next. -/
  | member (members : List (String × Json)) (name : String)

/-- What may come next. -/
inductive Phase where
  | value
  /-- A value, or the end of an array that has just begun. -/
  | firstItem
  /-- A comma or the end of an array. -/
  | afterItem
  /-- A name, or the end of an object that has just begun. -/
  | firstName
  | name
  | colon
  /-- A comma or the end of an object. -/
  | afterMember
  /-- Nothing: the document is complete. -/
  | done (j : Json)

/-- The state of the machine. -/
structure ParseState where
  stack : List Frame
  phase : Phase

/-- The most arrays and objects that may be open at once. -/
def maxDepth : Nat := 127

/-- The state once a value is complete. -/
def complete (j : Json) : List Frame → Option ParseState
  | [] => some ⟨[], .done j⟩
  | .array items :: rest => some ⟨.array (j :: items) :: rest, .afterItem⟩
  | .member members name :: rest => some ⟨.object ((name, j) :: members) :: rest, .afterMember⟩
  | .object _ :: _ => none

/-- The state once another array or object is open. -/
def push (frame : Frame) (phase : Phase) (stack : List Frame) : Option ParseState :=
  if stack.length < maxDepth then some ⟨frame :: stack, phase⟩ else none

/-- The state after the first token of a value. -/
def startValue (stack : List Frame) : Token → Option ParseState
  | .scalar j => complete j stack
  | .openArray => push (.array []) .firstItem stack
  | .openObject => push (.object []) .firstName stack
  | _ => none

/-- The state after the end of the innermost array. -/
def closeArray : List Frame → Option ParseState
  | .array items :: rest => complete (.array items.reverse) rest
  | _ => none

/-- The state after the end of the innermost object. -/
def closeObject : List Frame → Option ParseState
  | .object members :: rest => complete (.object (KeyMap.ofPairs members.reverse)) rest
  | _ => none

/-- The state after the name of a member. -/
def startMember (name : String) : List Frame → Option ParseState
  | .object members :: rest => some ⟨.member members name :: rest, .colon⟩
  | _ => none

/-- The state after a token. -/
def parseStep (state : ParseState) (token : Token) : Option ParseState :=
  match state.phase, token with
  | .value, t => startValue state.stack t
  | .firstItem, .closeArray => closeArray state.stack
  | .firstItem, t => startValue state.stack t
  | .afterItem, .comma => some { state with phase := .value }
  | .afterItem, .closeArray => closeArray state.stack
  | .firstName, .closeObject => closeObject state.stack
  | .firstName, .scalar (.string s) => startMember s state.stack
  | .name, .scalar (.string s) => startMember s state.stack
  | .colon, .colon => some { state with phase := .value }
  | .afterMember, .comma => some { state with phase := .name }
  | .afterMember, .closeObject => closeObject state.stack
  | _, _ => none

/-- The document that tokens write. -/
def ofTokens? (tokens : List Token) : Option Json :=
  match tokens.foldlM parseStep ⟨[], .value⟩ with
  | some ⟨_, .done j⟩ => some j
  | _ => none

/-- The document that a text holds, if it holds one and nothing else. -/
def parse? (s : String) : Option Json :=
  (lexFrom .between s.toList).bind ofTokens?

end ProtoStub.Json
