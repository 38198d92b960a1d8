/-
  Schemas as they are handed in: files of messages, enums, services and extensions,
  with type names still unresolved. A missing text is empty and a missing number is
  zero; only a file's name and a field's JSON name can be told apart from absent ones.
-/

namespace ProtoStub

/-- The declared type of a field. -/
inductive FieldType where
  | double
  | float
  | int64
  | uint64
  | int32
  | fixed64
  | fixed32
  | bool
  | string
  | group
  | message
  | bytes
  | uint32
  | enum
  | sfixed32
  | sfixed64
  | sint32
  | sint64
  deriving DecidableEq, Repr

/-- The type with a given number; a number that is no type stands for `double`. -/
def FieldType.ofNumber (n : Int) : FieldType :=
  match n with
  | 2 => float
  | 3 => int64
  | 4 => uint64
  | 5 => int32
  | 6 => fixed64
  | 7 => fixed32
  | 8 => bool
  | 9 => string
  | 10 => group
  | 11 => message
  | 12 => bytes
  | 13 => uint32
  | 14 => enum
  | 15 => sfixed32
  | 16 => sfixed64
  | 17 => sint32
  | 18 => sint64
  | _ => double

/-- How often a field may occur. -/
inductive Label where
  | optional
  | required
  | repeated
  deriving DecidableEq, Repr

/-- The label with a given number; a number that is no label stands for `optional`. -/
def Label.ofNumber (n : Int) : Label :=
  match n with
  | 2 => required
  | 3 => repeated
  | _ => optional

/-- A declared field. -/
structure FieldDescriptor where
  name : String := ""
  number : Int32 := 0
  label : Label := .optional
  type : FieldType := .double
  typeName : String := ""
  /-- The message that an extension extends. -/
  extendee : String := ""
  /-- The position of the field's oneof among those of its message. -/
  oneofIndex : Option Int32 := none
  jsonName : Option String := none
  /-- Whether the field is marked optional in the third dialect. -/
  proto3Optional : Bool := false
  deriving DecidableEq, Repr

/-- A declared value of an enum. -/
structure EnumValueDescriptor where
  name : String := ""
  number : Int32 := 0
  deriving DecidableEq, Repr

/-- A declared enum. -/
structure EnumDescriptor where
  name : String := ""
  values : List EnumValueDescriptor := []
  deriving DecidableEq, Repr

/-- A declared message. -/
structure MessageDescriptor where
  name : String := ""
  fields : List FieldDescriptor := []
  extensionFields : List FieldDescriptor := []
  nested : List MessageDescriptor := []
  enums : List EnumDescriptor := []
  /-- The names of the oneofs. -/
  oneofs : List String := []
  isMapEntry : Bool := false

instance : Inhabited MessageDescriptor := ⟨{}⟩

/-- A declared method. -/
structure MethodDescriptor where
  name : String := ""
  inputType : String := ""
  outputType : String := ""
  clientStreaming : Bool := false
  serverStreaming : Bool := false
  deriving DecidableEq, Repr

/-- A declared service. -/
structure ServiceDescriptor where
  name : String := ""
  methods : List MethodDescriptor := []
  deriving DecidableEq, Repr

/-- A comment with the path of the declaration that it stands before. -/
structure CommentDescriptor where
  path : List Int32 := []
  leading : Option String := none
  deriving DecidableEq, Repr

/-- A schema file. -/
structure FileDescriptor where
  name : Option String := none
  package : String := ""
  /-- The dialect as the file names it. -/
  dialect : String := ""
  dependencies : List String := []
  messages : List MessageDescriptor := []
  enums : List EnumDescriptor := []
  services : List ServiceDescriptor := []
  extensionFields : List FieldDescriptor := []
  comments : List CommentDescriptor := []

namespace FileDescriptor

/-- The name of a file, empty if it has none. -/
def fileName (file : FileDescriptor) : String := file.name.getD ""

/-- What the full names of a file's declarations start with. -/
def namePath (file : FileDescriptor) : String :=
  if file.package = "" then "" else file.package ++ "."

end FileDescriptor
end ProtoStub
