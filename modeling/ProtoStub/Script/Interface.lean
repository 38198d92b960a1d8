import ProtoStub.Script.Comment
import ProtoStub.Script.Expression
import ProtoStub.Tree.Basic

/-
  The types of a module: an interface for each message and a union of names for each
  enum. What is nested in a message stands in a namespace with its name.
-/

namespace ProtoStub.Script

/-- The union of the names of an enum. -/
def unionType (e : EnumDecl) : String :=
  if e.values.isEmpty then "never"
  else " | ".intercalate (e.values.map fun v => inQuotes v.name)

/-- The type of an enum. -/
def enumType (e : EnumDecl) : List Line :=
  comment e.comment ++ [line ["export type ", e.name, " = ", unionType e, ";"], .blank]

/-- A member of an interface. -/
def interfaceMember (field : Field) : List Line :=
  comment field.info.comment ++
    [if field.info.optional || field.isMessage then
      line [field.info.name, "?: ", fieldType field, " | undefined;"]
    else line [field.info.name, ": ", fieldType field, ";"]]

/-- The interface of a message. -/
def interface (m : MessageDecl) : List Line :=
  comment m.comment ++
    (if m.fields.isEmpty then [line ["export interface ", m.name, " \x7b\x7d"]]
    else block ["export interface ", m.name, " \x7b"] (m.fields.flatMap interfaceMember) "\x7d") ++
    [.blank]

/-- The start of a namespace. -/
def namespaceHead (name : String) (outermost : Bool) : List Code :=
  [if outermost then "export declare namespace " else "export namespace ", name, " \x7b"]

mutual

/-- The types of a declaration and what is nested in it. -/
def declarationTypes (outermost : Bool) : Decl → List Line
  | .enum e => enumType e
  | .message m children =>
    if m.isMapEntry then []
    else
      interface m ++
        if (Decl.emitted children).isEmpty then []
        else block (namespaceHead m.name outermost) (nestedTypes false children) "\x7d" ++ [.blank]

/-- The types of several declarations. -/
def nestedTypes (outermost : Bool) : List Decl → List Line
  | [] => []
  | d :: rest => declarationTypes outermost d ++ nestedTypes outermost rest

end

end ProtoStub.Script
