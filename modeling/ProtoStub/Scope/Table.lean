import ProtoStub.Descriptor
import ProtoStub.TypeRef

/-
  The declarations of a schema in one list: file by file, the enums of a file before
  its messages, a message before what is nested in it.
-/

namespace ProtoStub

/-- A declared message or enum. -/
structure Declaration where
  fqName : String
  file : String
  package : String
  kind : DeclKind
  deriving DecidableEq, Repr

namespace Declaration

/-- A reference to a declaration from its own file. -/
def toRef (d : Declaration) : TypeRef :=
  let short := shortName d.fqName d.package
  { fqName := d.fqName, file := d.file, package := d.package, shortName := short,
    kind := d.kind, localName := short }

/-- The enums declared under the path `scope`. -/
def ofEnums (file package scope : String) (enums : List EnumDescriptor) : List Declaration :=
  enums.map fun e => ⟨scope ++ e.name, file, package, .enum⟩

mutual

/-- A message declared under the path `scope`, and what is nested in it. -/
def ofMessage (file package scope : String) : MessageDescriptor → List Declaration
  | ⟨name, _, _, nested, enums, _, _⟩ =>
    let fqName := scope ++ name
    ⟨fqName, file, package, .message⟩ ::
      (ofEnums file package (fqName ++ ".") enums ++ ofMessages file package (fqName ++ ".") nested)

/-- The messages declared under the path `scope`, and what is nested in them. -/
def ofMessages (file package scope : String) : List MessageDescriptor → List Declaration
  | [] => []
  | m :: rest => ofMessage file package scope m ++ ofMessages file package scope rest

end

/-- The declarations of a file. -/
def ofFile (file : FileDescriptor) : List Declaration :=
  ofEnums file.fileName file.package file.namePath file.enums ++
    ofMessages file.fileName file.package file.namePath file.messages

end Declaration
end ProtoStub
