import ProtoStub.Field.Basic
import ProtoStub.ImportTable

/-
  Resolved schema files: the declarations as a tree of messages and enums, with every
  type reference resolved, the services, and the imports that all of this needs.
-/

namespace ProtoStub

/-- The dialects of the schema language. -/
inductive Dialect where
  | proto2
  | proto3
  deriving DecidableEq, Repr

namespace Dialect

/-- The name of a dialect. -/
def name : Dialect → String
  | proto2 => "proto2"
  | proto3 => "proto3"

/-- The dialect that a file names; a file that names none is in the second one. -/
def ofName (name : String) : Except Error Dialect :=
  match name with
  | "" | "proto2" => .ok proto2
  | "proto3" => .ok proto3
  | other => .error (.dialect other)

end Dialect

/-- A value of an enum. -/
structure EnumValueDecl where
  name : String
  number : Int32
  comment : Option String
  deriving DecidableEq, Repr

/-- An enum. -/
structure EnumDecl where
  name : String
  fqName : String
  shortName : String
  values : List EnumValueDecl
  comment : Option String
  deriving DecidableEq, Repr

namespace EnumDecl

/-- The first name of a number. -/
def nameOf? (e : EnumDecl) (number : Int32) : Option String :=
  (e.values.find? (·.number = number)).map (·.name)

/-- The number of a name. -/
def numberOf? (e : EnumDecl) (name : String) : Option Int32 :=
  (e.values.find? (·.name = name)).map (·.number)

end EnumDecl

/-- A message, without what is nested in it. -/
structure MessageDecl where
  name : String
  fqName : String
  shortName : String
  /-- Whether the message is the entry of a map. -/
  isMapEntry : Bool
  fields : List Field
  comment : Option String
  deriving DecidableEq, Repr

namespace MessageDecl

/-- The field with a number. -/
def fieldByNumber? (m : MessageDecl) (number : UInt32) : Option Field :=
  m.fields.find? (·.info.number = number)

/-- The other members of a field's oneof. -/
def siblings (m : MessageDecl) (field : Field) : List Field :=
  m.fields.filter fun other =>
    field.info.oneof.isSome && other.info.oneof = field.info.oneof &&
      other.info.number ≠ field.info.number

end MessageDecl

/-- A declaration with what is nested in it. -/
inductive Decl where
  | enum (e : EnumDecl)
  | message (m : MessageDecl) (children : List Decl)

namespace Decl

/-- The full name of a declaration. -/
def fqName : Decl → String
  | enum e => e.fqName
  | message m _ => m.fqName

/-- The map entry message that a declaration is. -/
def asMapEntry : Decl → Option MessageDecl
  | enum _ => none
  | message m _ => if m.isMapEntry then some m else none

/-- The declarations that appear in generated code, which has no use for map entries. -/
def emitted (decls : List Decl) : List Decl :=
  decls.filter (·.asMapEntry.isNone)

mutual

/-- A declaration and all that is nested in it, from the outside in. -/
def walk : Decl → List Decl
  | enum e => [enum e]
  | message m children => message m children :: walkAll children

/-- All declarations of a list and what is nested in them. -/
def walkAll : List Decl → List Decl
  | [] => []
  | d :: rest => walk d ++ walkAll rest

end

end Decl

/-- A method of a service. -/
structure MethodDecl where
  name : String
  input : TypeRef
  output : TypeRef
  comment : Option String
  deriving DecidableEq, Repr

/-- A service. -/
structure ServiceDecl where
  name : String
  methods : List MethodDecl
  comment : Option String
  deriving DecidableEq, Repr

/-- A resolved schema file. -/
structure FileTree where
  name : String
  package : String
  dialect : Dialect
  types : List Decl
  services : List ServiceDecl
  imports : ImportTable

namespace FileTree

/-- The name by which a server knows a service. -/
def servicePath (tree : FileTree) (service : ServiceDecl) : String :=
  if tree.package = "" then service.name else tree.package ++ "." ++ service.name

/-- The route of a method. -/
def methodPath (tree : FileTree) (service : ServiceDecl) (method : MethodDecl) : String :=
  "/" ++ tree.servicePath service ++ "/" ++ method.name

/-- All declarations of a file. -/
def walk (tree : FileTree) : List Decl := Decl.walkAll tree.types

end FileTree
end ProtoStub
