import ProtoStub.Error
import ProtoStub.Scope.Closure
import ProtoStub.Scope.Table

/-
  What a name means in a file. A file sees its own declarations and those of the files
  it reaches through its dependencies; a name must have exactly one declaration among
  them.
-/

namespace ProtoStub

/-- The files of a schema and all that they declare. -/
structure Scope where
  /-- The names of the files. -/
  fileNames : List String
  /-- The dependencies of each file, by name. -/
  dependencies : List (List String)
  declarations : List Declaration
  deriving DecidableEq, Repr

namespace Scope

/-- The scope of a schema, in which every file must have a name. -/
def ofFiles (files : List FileDescriptor) : Except Error Scope :=
  match files.findIdx? (·.name.isNone) with
  | some index => .error (.missingFileName index)
  | none =>
    .ok {
      fileNames := files.map (·.fileName)
      dependencies := files.map (·.dependencies)
      declarations := files.flatMap Declaration.ofFile }

/-- The position of the last file with a name. -/
def fileIndex? (scope : Scope) (file : String) : Option Nat :=
  (scope.fileNames.zipIdx.reverse.find? (·.1 = file)).map (·.2)

/-- The positions of the dependencies that are part of the schema. -/
def successors (scope : Scope) (index : Nat) : List Nat :=
  ((scope.dependencies[index]?).getD []).filterMap scope.fileIndex?

/-- The positions of the files that a file sees. -/
def visible (scope : Scope) (index : Nat) : List Nat :=
  reachable scope.successors scope.fileNames.length index

/-- The names of the files that a file sees, in the order of the schema. -/
def visibleFiles (scope : Scope) (file : String) : List String :=
  match scope.fileIndex? file with
  | none => []
  | some index => (scope.visible index).filterMap (scope.fileNames[·]?)

/-- The declarations with a full name. -/
def lookup (scope : Scope) (fqName : String) : List Declaration :=
  scope.declarations.filter (·.fqName = fqName)

/-- The declarations with a full name in the files at the given positions. -/
def candidates (scope : Scope) (files : List Nat) (fqName : String) : List Declaration :=
  (scope.lookup fqName).filter fun d =>
    match scope.fileIndex? d.file with
    | none => false
    | some index => index ∈ files

/-- The declaration that a name, with or without a leading dot, means in a file. -/
def resolve (scope : Scope) (name file : String) : Except Error TypeRef :=
  let fqName := Text.withoutDot name
  match scope.fileIndex? file with
  | none => .error (.internal ("resolution requested for unknown file '" ++ file ++ "'"))
  | some index =>
    match scope.candidates (scope.visible index) fqName with
    | [] => .error (.unresolved fqName file)
    | [d] => .ok d.toRef
    | many => .error (.ambiguous fqName file (many.map (·.file)))

end Scope
end ProtoStub
