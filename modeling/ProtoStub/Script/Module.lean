import ProtoStub.Script.CodecObject
import ProtoStub.Script.Interface
import ProtoStub.Script.Stub

/-
  Generated modules: a header with the imports, the types, the clients and registrations
  of the services, and the objects that encode and decode.
-/

namespace ProtoStub.Script

/-- The module that holds the runtime library. -/
def runtimeModule : String := "twirpscript"

/-- The messages of a file that appear in its module. -/
def emittedMessages (tree : FileTree) : List MessageDecl :=
  tree.walk.filterMap fun
    | .enum _ => none
    | .message m _ => if m.isMapEntry then none else some m

/-- Whether a field, or a value of a map, consists of bytes. -/
def usesBytes (field : Field) : Bool :=
  match field with
  | .plain _ => valueType? field = some .bytes
  | .map _ _ value => valueType? value = some .bytes

/-- Whether the module of a file needs a name of the runtime library. -/
def needs (tree : FileTree) : RuntimeName → Bool
  | .binaryReader | .binaryWriter | .byteSource => !(emittedMessages tree).isEmpty
  | .base64Decoder | .base64Encoder => (emittedMessages tree).any (·.fields.any usesBytes)
  | .clientConfiguration | .jsonRequest | .binaryRequest => !tree.services.isEmpty

/-- The types of the runtime library, in the order of their names. -/
def runtimeTypes : List RuntimeName := [.byteSource, .clientConfiguration]

/-- The values of the runtime library, in the order of their names. -/
def runtimeValues : List RuntimeName :=
  [.binaryReader, .binaryWriter, .jsonRequest, .binaryRequest, .base64Decoder, .base64Encoder]

/-- An import statement, unless there is nothing to import. -/
def importLine (keyword : String) (names : List Code) (path : String) : List Line :=
  if names.isEmpty then []
  else [line [keyword, " \x7b ", joined ", " names, " \x7d from ", inQuotes path, ";"]]

/-- The import statements of a module. -/
def imports (language : Language) (tree : FileTree) : List Line :=
  (if language.isTyped then
    importLine "import type" ((runtimeTypes.filter (needs tree)).map runtime) runtimeModule
  else []) ++
  importLine "import" ((runtimeValues.filter (needs tree)).map runtime) runtimeModule ++
  tree.imports.entries.map fun entry =>
    line ["import \x7b ", ", ".intercalate entry.identifiers, " \x7d from ",
      inQuotes entry.path, ";"]

/-- The first lines of a module. -/
def header (language : Language) (tree : FileTree) : List Line :=
  [line ["// THIS IS AN AUTOGENERATED FILE. DO NOT EDIT THIS FILE DIRECTLY."],
    line ["// Source: ", tree.name],
    line ["/* eslint-disable */"],
    .blank] ++
  (if (imports language tree).isEmpty then [] else imports language tree ++ [.blank])

/-- The types of a module. -/
def typeSection (language : Language) (tree : FileTree) : List Line :=
  if language.isTyped && !tree.types.isEmpty then banner "Types" ++ nestedTypes true tree.types
  else []

/-- The objects of a module that encode and decode. -/
def codecSection (options : Options) (tree : FileTree) : List Line :=
  if tree.types.isEmpty then []
  else
    banner "Protobuf Encode / Decode" ++ tree.types.flatMap (declarationObject options true)

/-- What follows the header of a module. -/
def body (options : Options) (tree : FileTree) : List Line :=
  typeSection options.language tree ++
    tree.services.flatMap (serviceLines options.language tree) ++ codecSection options tree

/-- The module of a file. -/
def moduleLines (options : Options) (tree : FileTree) : List Line :=
  header options.language tree ++ body options tree

/-- The text of the module of a file. -/
def moduleText (options : Options) (tree : FileTree) : String :=
  render options.indent (moduleLines options tree)

end ProtoStub.Script
