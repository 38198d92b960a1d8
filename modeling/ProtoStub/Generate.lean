import ProtoStub.ModulePath
import ProtoStub.Script.Module
import ProtoStub.Tree.Build

/-
  Generating modules for the files of a request.
-/

namespace ProtoStub

/-- A request: the schema files, those to generate modules for, and a parameter. -/
structure Request where
  targets : List String := []
  parameter : Option String := none
  files : List FileDescriptor := []

/-- A generated file. -/
structure GeneratedFile where
  name : String
  content : String
  deriving DecidableEq, Repr

/-- The answer to a request: generated files, or what went wrong. -/
structure Response where
  failure : Option String
  files : List GeneratedFile
  deriving DecidableEq, Repr

/-- The features that every response announces: fields of the newer dialect may be marked
optional. -/
def supportedFeatures : Nat := 1

/-- The modules for the target files. -/
def generateFiles (files : List FileDescriptor) (targets : List String) (options : Options) :
    Except Error (List GeneratedFile) :=
  (FileTree.build files targets options.language).map fun trees =>
    trees.map fun tree =>
      ⟨ModulePath.generated tree.name options.language, Script.moduleText options tree⟩

namespace Request

/-- The files that a request asks for, generated as its options say. -/
def generateWith (request : Request) (options : Options) : Except Error (List GeneratedFile) :=
  generateFiles request.files request.targets options

/-- The options of a request. -/
def options (request : Request) : Options := Options.ofParameter request.parameter

end Request

/-- The response for a result. A failing run has a message and no files. -/
def Response.ofResult : Except Error (List GeneratedFile) → Response
  | .ok files => ⟨none, files⟩
  | .error e => ⟨some e.message, []⟩

/-- The response to a request. -/
def Request.respond (request : Request) : Response :=
  .ofResult (request.generateWith request.options)

end ProtoStub
