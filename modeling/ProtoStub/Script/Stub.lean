import ProtoStub.Script.Comment
import ProtoStub.Script.Expression
import ProtoStub.Text.Lowercase
import ProtoStub.Tree.Basic

/-
  The clients of services, and what registers a service with a server.
-/

namespace ProtoStub.Script

/-- The names that the parameter of a method may not have: reserved words of the language and
the names that a stub uses itself. -/
def reservedNames : List String :=
  ["await", "break", "case", "catch", "class", "config", "const", "context", "continue",
    "debugger", "default", "delete", "do", "else", "enum", "export", "extends", "false",
    "finally", "for", "function", "if", "implements", "import", "in", "instanceof",
    "interface", "let", "new", "null", "package", "private", "protected", "public",
    "response", "return", "static", "super", "switch", "this", "throw", "true", "try",
    "typeof", "var", "void", "while", "with", "yield"]

/-- A name with its first character in lower case. -/
def lowerFirst (name : String) : String :=
  match name.toList with
  | [] => "input"
  | c :: rest => String.ofList (Text.lowercase c ++ rest)

/-- The parameter of a method, after the last part of its type's name. -/
def parameterName (typeName : String) : String :=
  let name := lowerFirst (((Text.pieces '.' typeName).getLast?).getD typeName)
  if name ∈ reservedNames then name ++ "_" else name

/-- One of the two encodings of a request. -/
structure Protocol where
  request : RuntimeName
  encode : String
  decode : String
  /-- What the names of its clients end in. -/
  suffix : String
  deriving DecidableEq, Repr

/-- Requests in the wire format. -/
def Protocol.binary : Protocol := ⟨.binaryRequest, "encode", "decode", ""⟩

/-- Requests in JSON. -/
def Protocol.json : Protocol := ⟨.jsonRequest, "encodeJSON", "decodeJSON", "JSON"⟩

/-- The client of a method. -/
def client (language : Language) (tree : FileTree) (service : ServiceDecl) (protocol : Protocol)
    (method : MethodDecl) : List Line :=
  let parameter := parameterName method.input.shortName
  comment method.comment ++
    block
      (signature language (code ["export async function ", method.name, protocol.suffix])
        [(parameter, ref method.input), ("config?", runtime .clientConfiguration)]
        (code ["Promise<", ref method.output, ">"]))
      (block ["const response = await ", runtime protocol.request, "("]
        [line [inQuotes (tree.methodPath service method), ","],
          line [ref method.input, ".", protocol.encode, "(", parameter, "),"],
          line ["config,"]]
        ");" ++
        [line ["return ", ref method.output, ".", protocol.decode, "(response);"]])
      "\x7d" ++
    [.blank]

/-- The interface that a server implements. -/
def serviceInterface (service : ServiceDecl) : List Line :=
  comment service.comment ++
    block ["export interface ", service.name, "<Context = unknown> \x7b"]
      (service.methods.flatMap fun method =>
        comment method.comment ++
          [line [method.name, ": (", parameterName method.input.shortName, ": ",
            ref method.input, ", context: Context) => Promise<", ref method.output, "> | ",
            ref method.output, ";"]])
      "\x7d" ++
    [.blank]

/-- The conversions of a type in both encodings. -/
def conversions (target : TypeRef) : Code :=
  code ["\x7b protobuf: \x7b encode: ", ref target, ".encode, decode: ", ref target,
    ".decode \x7d, json: \x7b encode: ", ref target, ".encodeJSON, decode: ", ref target,
    ".decodeJSON \x7d \x7d"]

/-- What a server needs to know of a method. -/
def methodEntry (method : MethodDecl) : List Line :=
  block [method.name, ": \x7b"]
    [line ["name: ", inQuotes method.name, ","],
      line ["handler: service.", method.name, ","],
      line ["input: ", conversions method.input, ","],
      line ["output: ", conversions method.output, ","]]
    "\x7d,"

/-- The function that registers a service. -/
def registration (language : Language) (tree : FileTree) (service : ServiceDecl) : List Line :=
  let head := "export function create" ++ service.name
  block
    (signature language (if language.isTyped then head ++ "<Context>" else head)
      [("service", service.name ++ "<Context>")] [])
    (block ["return \x7b"]
      (line ["name: ", inQuotes (tree.servicePath service), ","] ::
        block ["methods: \x7b"] (service.methods.flatMap methodEntry) "\x7d,")
      (if language.isTyped then "\x7d as const;" else "\x7d;"))
    "\x7d" ++
  [.blank]

/-- All that a module holds for a service. -/
def serviceLines (language : Language) (tree : FileTree) (service : ServiceDecl) : List Line :=
  banner (service.name ++ " Protobuf Client") ++
    service.methods.flatMap (client language tree service .binary) ++
    banner (service.name ++ " JSON Client") ++
    service.methods.flatMap (client language tree service .json) ++
    banner service.name ++
    (if language.isTyped then serviceInterface service else []) ++
    registration language tree service

end ProtoStub.Script
