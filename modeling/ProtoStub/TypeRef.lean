import ProtoStub.Text.Cut

/-
  References to declared types, as generated code spells them.
-/

namespace ProtoStub

/-- What a declaration declares. -/
inductive DeclKind where
  | message
  | enum
  deriving DecidableEq, Repr

/-- A reference to a declared type. -/
structure TypeRef where
  /-- The dotted path with the package. -/
  fqName : String
  /-- The file that declares the type. -/
  file : String
  package : String
  /-- The dotted path within the package. -/
  shortName : String
  kind : DeclKind
  /-- The name by which the referring module knows the type. -/
  localName : String
  deriving DecidableEq, Repr

namespace TypeRef

/-- The outermost declaration on the path to the type, which is what a module imports. -/
def root (ref : TypeRef) : String :=
  ((Text.cut? '.' ref.shortName).map (·.1)).getD ref.shortName

/-- The reference in a module that knows the outermost declaration as `root`. -/
def bindRoot (ref : TypeRef) (root : String) : TypeRef :=
  { ref with
    localName :=
      match Text.cut? '.' ref.shortName with
      | some (_, rest) => root ++ "." ++ rest
      | none => root }

end TypeRef

/-- The dotted path of a declaration within its package. -/
def shortName (fqName package : String) : String :=
  if package = "" then fqName
  else ((Text.afterStart? package fqName).bind (Text.afterStart? ".")).getD fqName

end ProtoStub
