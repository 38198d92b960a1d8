import ProtoStub.Scope.Resolve
import ProtoStub.Text.Blank
import ProtoStub.Tree.Basic

/-
  Resolving a schema file. Types are resolved in the order in which they are declared,
  nested declarations before the fields of their message, and each reference to another
  file is entered into the imports on the way. The first fault ends the construction.
-/

namespace ProtoStub

/-- A construction that may enter imports and may fail. -/
abbrev Build := StateT ImportTable (Except Error)

/-- The comments of a file that say something, without white space at their ends. -/
def FileDescriptor.remarks (file : FileDescriptor) : List (List Int32 × String) :=
  file.comments.filterMap fun c =>
    match c.leading.map Text.trimEnd with
    | some text => if Text.trim text = "" then none else some (c.path, text)
    | none => none

/-- What the declarations of a file are resolved in. -/
structure FileContext where
  scope : Scope
  file : String
  package : String
  dialect : Dialect
  remarks : List (List Int32 × String)

namespace FileContext

/-- The comment before the declaration at a path, the last one if there are several. -/
def comment? (ctx : FileContext) (path : List Int32) : Option String :=
  (ctx.remarks.reverse.find? (·.1 = path)).map (·.2)

/-- The path of the `index`-th declaration of a sort below another declaration. -/
def child (path : List Int32) (sort : Int32) (index : Nat) : List Int32 :=
  path ++ [sort, Int32.ofNat index]

/-- Resolves a type name and imports the type. -/
def resolve (ctx : FileContext) (name : String) : Build TypeRef := do
  let ref ← ctx.scope.resolve name ctx.file
  let table ← get
  let (root, table) := table.register ref
  set table
  return ref.bindRoot root

/-- An enum declared under the path `namePath`. -/
def enumDecl (ctx : FileContext) (namePath : String) (path : List Int32) (e : EnumDescriptor) :
    EnumDecl :=
  let fqName := namePath ++ e.name
  { name := e.name
    fqName := fqName
    shortName := shortName fqName ctx.package
    values := e.values.zipIdx.map fun (v, i) =>
      { name := v.name, number := v.number, comment := ctx.comment? (child path 2 i) }
    comment := ctx.comment? path }

/-- The enums of a list, which are the declarations of the given sort below `path`. -/
def enumDecls (ctx : FileContext) (namePath : String) (path : List Int32) (sort : Int32)
    (enums : List EnumDescriptor) : List Decl :=
  enums.zipIdx.map fun (e, i) => .enum (ctx.enumDecl namePath (child path sort i) e)

/-- Refuses extensions, which would be declared under the path `namePath`. -/
def refuseExtensions (namePath : String) : List FieldDescriptor → Except Error Unit
  | [] => .ok ()
  | e :: _ => .error (.extensionField (namePath ++ e.name) (Text.withoutDot e.extendee))

end FileContext

/-- The name of the oneof at a position; a position outside the list names none. -/
def oneofAt? (oneofs : List String) (index : Int32) : Option String :=
  if index.toInt < 0 then none else oneofs[index.toInt.toNat]?

/-- The oneof that a field declares itself a member of. -/
def FieldDescriptor.oneof? (field : FieldDescriptor) (oneofs : List String) : Option String :=
  field.oneofIndex.bind (oneofAt? oneofs)

/-- Whether a field can be absent: it is marked optional, is a member of a oneof, or belongs
to the second dialect. -/
def FieldDescriptor.explicitPresence (field : FieldDescriptor) (oneofs : List String)
    (dialect : Dialect) : Bool :=
  field.proto3Optional || (field.oneof? oneofs).isSome || dialect = .proto2

namespace MessageDecl

/-- Checks that a map entry has a key and a value, and a key that can be one. -/
def checkMapEntry (fqName : String) (fields : List Field) : Except Error Unit :=
  match fields with
  | [key, value] =>
    if key.info.protoName = "key" ∧ key.info.number = 1 ∧ value.info.protoName = "value" ∧
        value.info.number = 2 then
      if key.info.kind.isMapKey then .ok ()
      else .error (.mapEntry fqName "key type cannot be a map key")
    else .error (.mapEntry fqName malformed)
  | _ => .error (.mapEntry fqName malformed)
where
  /-- What is wrong with the fields of a map entry. -/
  malformed : String := "expected exactly `key = 1` and `value = 2`"

/-- A field of a map entry as the map field sees it, which always holds a value. -/
def entryField (field : Field) : Except Error Field := do
  let shape ← FieldShape.of field.info.kind false false
  return field.withInfo { field.info with optional := false, initial := shape.initial }

/-- The key and the value of a map entry. -/
def keyAndValue (entry : MessageDecl) : Except Error (Field × Field) :=
  match entry.fields with
  | [key, value] => do return (← entryField key, ← entryField value)
  | _ => .error (.mapEntry entry.fqName "expected two fields")

end MessageDecl

namespace FileContext

/-- The map entry among the nested declarations that a field of a kind refers to. -/
def mapEntryOf? (kind : FieldKind) (nested : List Decl) : Option MessageDecl :=
  match kind with
  | .message target => (nested.filterMap Decl.asMapEntry).find? (·.fqName = target.fqName)
  | _ => none

/-- Makes a field that refers to a map entry a map. -/
def asMap (fieldName : String) (info : FieldInfo) (entry : MessageDecl) : Except Error Field :=
  if info.repeated then do
    let (key, value) ← entry.keyAndValue
    return .map { info with repeated := false, initial := .emptyMap } key value
  else
    .error (.mapEntry entry.fqName ("referenced by non-repeated field '" ++ fieldName ++ "'"))

/-- What is known of a field of the given kind, once its shape is. -/
def fieldInfo (ctx : FileContext) (oneofs : List String) (comment : Option String)
    (field : FieldDescriptor) (kind : FieldKind) (shape : FieldShape) : FieldInfo :=
  let camel := Text.camelCase field.name
  let jsonName := field.jsonName.getD camel
  { name := camel
    number := UInt32.ofInt field.number.toInt
    repeated := field.label = .repeated
    optional := field.label ≠ .repeated && field.explicitPresence oneofs ctx.dialect
    oneof := if field.proto3Optional then none else field.oneof? oneofs
    kind := kind
    initial := shape.initial
    operations := shape.operations
    protoName := field.name
    jsonName := jsonName
    customJsonName := if jsonName = camel then none else some jsonName
    comment := comment }

/-- A field of the message `messageName`, whose nested declarations are resolved already. -/
def field (ctx : FileContext) (messageName : String) (oneofs : List String) (nested : List Decl)
    (comment : Option String) (field : FieldDescriptor) : Build Field := do
  let fieldName := messageName ++ "." ++ field.name
  let kind ← FieldKind.ofType (ctx.resolve field.typeName) field.type
  let repeated : Bool := field.label = .repeated
  let optional := !repeated && field.explicitPresence oneofs ctx.dialect
  let shape ←
    match FieldShape.of kind repeated optional with
    | .ok shape => pure shape
    | .error _ => throw (.groupEncoding fieldName)
  let info := ctx.fieldInfo oneofs comment field kind shape
  match mapEntryOf? kind nested with
  | some entry => asMap fieldName info entry
  | none => return .plain info

mutual

/-- A message declared under the path `namePath`, with what is nested in it. -/
def message (ctx : FileContext) (namePath : String) (path : List Int32) :
    MessageDescriptor → Build Decl
  | ⟨name, fields, extensionFields, nested, enums, oneofs, isMapEntry⟩ => do
    let fqName := namePath ++ name
    refuseExtensions (fqName ++ ".") extensionFields
    let enumDecls := ctx.enumDecls (fqName ++ ".") path 4 enums
    let messageDecls ← ctx.messages (fqName ++ ".") path 3 0 nested
    let children := enumDecls ++ messageDecls
    let fields ← fields.zipIdx.mapM fun (f, i) =>
      ctx.field fqName oneofs children (ctx.comment? (child path 2 i)) f
    if isMapEntry then
      MessageDecl.checkMapEntry fqName fields
    return .message
      { name := name
        fqName := fqName
        shortName := shortName fqName ctx.package
        isMapEntry := isMapEntry
        fields := fields
        comment := ctx.comment? path }
      children

/-- The messages of a list, the declarations of the given sort below `path` from the
`index`-th on. -/
def messages (ctx : FileContext) (namePath : String) (path : List Int32) (sort : Int32)
    (index : Nat) : List MessageDescriptor → Build (List Decl)
  | [] => return []
  | m :: rest => do
    let decl ← ctx.message namePath (child path sort index) m
    let decls ← ctx.messages namePath path sort (index + 1) rest
    return decl :: decls

end

/-- A method of the service `serviceName`. -/
def method (ctx : FileContext) (serviceName : String) (comment : Option String)
    (m : MethodDescriptor) : Build MethodDecl := do
  if m.clientStreaming || m.serverStreaming then
    throw (.streaming (serviceName ++ "." ++ m.name))
  let input ← ctx.resolve m.inputType
  let output ← ctx.resolve m.outputType
  return { name := m.name, input := input, output := output, comment := comment }

/-- A service. -/
def service (ctx : FileContext) (path : List Int32) (s : ServiceDescriptor) :
    Build ServiceDecl := do
  let methods ← s.methods.zipIdx.mapM fun (m, i) =>
    ctx.method s.name (ctx.comment? (child path 2 i)) m
  return { name := s.name, methods := methods, comment := ctx.comment? path }

end FileContext

namespace FileDescriptor

/-- The names that the module of a file declares at its top level. -/
def topLevelNames (file : FileDescriptor) : List String :=
  file.enums.map (·.name) ++ file.messages.map (·.name) ++
    file.services.flatMap fun s =>
      [s.name, "create" ++ s.name] ++ s.methods.flatMap fun m => [m.name, m.name ++ "JSON"]

end FileDescriptor

namespace FileTree

/-- An import table in which the names that a file declares are reserved. -/
def emptyImports (file : FileDescriptor) (language : Language) : ImportTable :=
  file.topLevelNames.foldl ImportTable.reserve { file := file.fileName, language := language }

/-- Resolves a file. -/
def ofFile (scope : Scope) (language : Language) (file : FileDescriptor) :
    Except Error FileTree := do
  let dialect ← Dialect.ofName file.dialect
  let ctx : FileContext :=
    { scope := scope, file := file.fileName, package := file.package, dialect := dialect,
      remarks := file.remarks }
  FileContext.refuseExtensions file.namePath file.extensionFields
  let enums := ctx.enumDecls file.namePath [] 5 file.enums
  let build : Build (List Decl × List ServiceDecl) := do
    let messages ← ctx.messages file.namePath [] 4 0 file.messages
    let services ← file.services.zipIdx.mapM fun (s, i) =>
      ctx.service (FileContext.child [] 6 i) s
    return (messages, services)
  let ((messages, services), imports) ← build.run (emptyImports file language)
  return {
    name := file.fileName
    package := file.package
    dialect := dialect
    types := enums ++ messages
    services := services
    imports := imports }

/-- Resolves the files named in `targets`. -/
def build (files : List FileDescriptor) (targets : List String) (language : Language) :
    Except Error (List FileTree) := do
  let scope ← Scope.ofFiles files
  targets.mapM fun target =>
    match files.find? (·.name = some target) with
    | none => .error (.unknownFile target)
    | some file => ofFile scope language file

end FileTree
end ProtoStub
