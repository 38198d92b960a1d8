import ProtoStub.KeyMap
import ProtoStub.ModulePath
import ProtoStub.TypeRef

/-
  The imports of one generated module. Every type of another file is imported under
  its own name if that name is free, and else under an alias made from its package;
  the table keeps who was imported from where under which name, so that no two
  imports and no declaration of the module share a name.
-/

namespace ProtoStub

/-- The imports of a module. -/
structure ImportTable where
  /-- The schema file of the module. -/
  file : String
  language : Language
  /-- By module path and by imported identifier, the local name. -/
  byPath : KeyMap (KeyMap String) := []
  /-- Names that the module declares. -/
  reserved : List String := []
  deriving DecidableEq, Repr

/-- What a module imports from one other module. -/
structure ImportEntry where
  identifiers : List String
  path : String
  deriving DecidableEq, Repr

namespace ImportTable

/-- Keeps a name from being used for an import. -/
def reserve (table : ImportTable) (name : String) : ImportTable :=
  { table with reserved := name :: table.reserved }

/-- The local names of the imports. -/
def bound (table : ImportTable) : List String :=
  table.byPath.flatMap fun p => p.2.map (·.2)

/-- The names that a new import may not take. -/
def taken (table : ImportTable) : List String :=
  table.reserved ++ table.bound

/-- The path by which the module imports a type. -/
def pathTo (table : ImportTable) (ref : TypeRef) : String :=
  ModulePath.relative (ModulePath.generated table.file table.language)
    (ModulePath.generated ref.file table.language) table.language

/-- The local name of an identifier of another module, if it is imported. -/
def find? (table : ImportTable) (path identifier : String) : Option String :=
  (KeyMap.find? table.byPath path).bind fun m => KeyMap.find? m identifier

/-- What an alias starts with: the package with underscores for dots, or for want of a
package the file's path with an underscore for each character that no identifier holds. -/
def qualifier (ref : TypeRef) : String :=
  if ref.package = "" then
    String.ofList (((Text.beforeEnd? ".proto" ref.file).getD ref.file).toList.map fun c =>
      if c.isAlphanum then c else '_')
  else String.ofList (ref.package.toList.map fun c => if c = '.' then '_' else c)

/-- The first of `base ++ n`, `base ++ (n + 1)`, … that is not taken, looking at no more than
`count` of them. -/
def firstFree (taken : List String) (base : String) : (count n : Nat) → String
  | 0, n => base ++ toString n
  | count + 1, n =>
    if base ++ toString n ∈ taken then firstFree taken base count (n + 1)
    else base ++ toString n

/-- A name that is not taken: the base itself, or the base with the first number from 2 on
that makes it free. Among one more candidates than there are taken names, one is free. -/
def freeName (taken : List String) (base : String) : String :=
  if base ∈ taken then firstFree taken base taken.length 2 else base

/-- The local name for a new import of a type. -/
def newName (table : ImportTable) (ref : TypeRef) : String :=
  if ref.root ∈ table.taken then freeName table.taken (qualifier ref ++ "_" ++ ref.root)
  else ref.root

/-- Enters an import. -/
def bind (table : ImportTable) (path identifier name : String) : ImportTable :=
  { table with
    byPath := KeyMap.insert table.byPath path
      (KeyMap.insert ((KeyMap.find? table.byPath path).getD []) identifier name) }

/-- The local name of a type's outermost declaration, importing it if it is not there. A
type of the file itself needs no import. -/
def register (table : ImportTable) (ref : TypeRef) : String × ImportTable :=
  if ref.file = table.file then (ref.root, table)
  else
    match table.find? (table.pathTo ref) ref.root with
    | some name => (name, table)
    | none =>
      let name := table.newName ref
      (name, table.bind (table.pathTo ref) ref.root name)

/-- How an import statement writes an identifier. -/
def clause (identifier name : String) : String :=
  if identifier = name then identifier else identifier ++ " as " ++ name

/-- The imports by path. -/
def entries (table : ImportTable) : List ImportEntry :=
  table.byPath.map fun p => ⟨p.2.map fun q => clause q.1 q.2, p.1⟩

/-- Whether nothing is imported. -/
def isEmpty (table : ImportTable) : Bool :=
  table.byPath.isEmpty

end ImportTable
end ProtoStub
