import Mathlib
import ProtoStub.Proofs.ModuleNames

/-!
# Names of the runtime library

A module imports what it uses of the runtime library. Which names these are is found out before
anything is printed, by a walk over the declarations of the file, while what is printed follows the
declarations in a way of its own: it does not enter map entries, and a field is looked at by one
method after the other. The two agree: a name that the body of a module refers to is imported, and
the base64 functions are imported just if a message that is shown holds bytes (`runtime_imported`).

What code may refer to is a property of names (`Code.Names`, `Names`), with one lemma for each
function that prints. Most of them refer to nothing; the others say what they need of the message or
the language.
-/

namespace ProtoStub

namespace Script

/-! ## What code and lines refer to -/

/-- The code of a line. -/
def Line.code : Line → Code
  | blank => []
  | line c | opening c | middle c | closing c => c

/-- The names of the runtime library in code have a property. -/
def Code.Names (P : RuntimeName → Prop) (c : Code) : Prop := ∀ name, .runtime name ∈ c → P name

/-- The names of the runtime library in lines have a property. -/
def Names (P : RuntimeName → Prop) (lines : List Line) : Prop := ∀ l ∈ lines, Code.Names P l.code

section

variable {P : RuntimeName → Prop}

@[simp] theorem Code.names_nil : Code.Names P [] := fun _ h => absurd h List.not_mem_nil

@[simp] theorem Code.names_append {c d : Code} :
    Code.Names P (c ++ d) ↔ Code.Names P c ∧ Code.Names P d := by
  simp only [Code.Names, List.mem_append, or_imp, forall_and]

@[simp] theorem Code.names_plain {s : String} {c : Code} :
    Code.Names P (.plain s :: c) ↔ Code.Names P c := by
  simp [Code.Names]

@[simp] theorem Code.names_ref (target : TypeRef) : Code.Names P (ref target) := by
  simp [Code.Names, ref]

@[simp] theorem Code.names_runtime {name : RuntimeName} :
    Code.Names P (runtime name) ↔ P name := by
  simp [Code.Names, runtime]

@[simp] theorem Code.names_code {parts : List Code} :
    Code.Names P (code parts) ↔ ∀ part ∈ parts, Code.Names P part := by
  induction parts with
  | nil => simp [code]
  | cons part parts ih => simpa [code] using and_congr_right fun _ => ih

@[simp] theorem names_nil : Names P [] := List.forall_mem_nil _

@[simp] theorem names_cons {l : Line} {lines : List Line} :
    Names P (l :: lines) ↔ Code.Names P l.code ∧ Names P lines := List.forall_mem_cons

@[simp] theorem names_append {lines lines' : List Line} :
    Names P (lines ++ lines') ↔ Names P lines ∧ Names P lines' := List.forall_mem_append

@[simp] theorem Line.code_blank : Line.blank.code = [] := rfl

@[simp] theorem Line.code_opening (c : Code) : (Line.opening c).code = c := rfl

@[simp] theorem Line.code_middle (c : Code) : (Line.middle c).code = c := rfl

@[simp] theorem Line.code_closing (c : Code) : (Line.closing c).code = c := rfl

@[simp] theorem code_line (parts : List Code) : (line parts).code = code parts := rfl

@[simp] theorem names_block {head : List Code} {body : List Line} {tail : String} :
    Names P (block head body tail) ↔ (∀ part ∈ head, Code.Names P part) ∧ Names P body := by
  simp [block]

theorem names_flatMap {α : Type} {xs : List α} {f : α → List Line} :
    Names P (xs.flatMap f) ↔ ∀ x ∈ xs, Names P (f x) := List.forall_mem_flatMap

@[simp] theorem names_map {α : Type} {xs : List α} {f : α → Line} :
    Names P (xs.map f) ↔ ∀ x ∈ xs, Code.Names P (f x).code := List.forall_mem_map

/-! ## Heads of functions -/

theorem RuntimeName.text_ne_empty (name : RuntimeName) : name.text ≠ "" := by
  cases name <;> decide

/-- Code that prints nothing refers to nothing. -/
theorem Code.names_of_text_eq_empty {c : Code} (h : c.text = "") : Code.Names P c := by
  intro name hname
  obtain ⟨before, after, rfl⟩ := List.append_of_mem hname
  have htext : name.text = "" := by
    rw [Code.text_append, ← List.singleton_append, Code.text_append, String.append_eq_empty_iff,
      String.append_eq_empty_iff] at h
    simpa [Code.text, Fragment.text] using h.2.1
  exact absurd htext name.text_ne_empty

@[simp] theorem Code.names_joined {sep : String} {parts : List Code} :
    Code.Names P (joined sep parts) ↔ ∀ part ∈ parts, Code.Names P part := by
  induction parts with
  | nil => simp [joined]
  | cons part parts ih =>
    cases parts with
    | nil => simp [joined]
    | cons next parts =>
      rw [joined] at ih ⊢
      rw [List.intersperse_cons_cons, Code.names_code, List.forall_mem_cons, List.forall_mem_cons,
        ← Code.names_code, ih, List.forall_mem_cons]
      simp

variable {language : Language}

@[simp] theorem names_parameter {p : String × Code} :
    Code.Names P (parameter language p) ↔ (language.isTyped → Code.Names P p.2) := by
  rw [parameter]
  split <;> simp [*]

theorem names_parameters {parameters : List (String × Code)} :
    Code.Names P (joined ", " (parameters.map (parameter language))) ↔
      (language.isTyped → ∀ p ∈ parameters, Code.Names P p.2) := by
  rw [Code.names_joined, List.forall_mem_map]
  simp only [names_parameter]
  exact ⟨fun h htyped p hp => h p hp htyped, fun h p hp htyped => h htyped p hp⟩

/-- The types of a head are shown only in the typed language. -/
@[simp] theorem names_signature {head : Code} {parameters : List (String × Code)} {result : Code} :
    (∀ part ∈ signature language head parameters result, Code.Names P part) ↔
      Code.Names P head ∧
        (language.isTyped → (∀ p ∈ parameters, Code.Names P p.2) ∧ Code.Names P result) := by
  rw [signature]
  split
  next h =>
    have htyped : language.isTyped = true := (Bool.and_eq_true_iff.1 h).1
    simp only [List.forall_mem_cons, names_parameters, htyped]
    simp
  next h =>
    simp only [List.forall_mem_cons, names_parameters]
    by_cases htyped : language.isTyped = true
    -- a type that is left out in the typed language prints nothing
    · have hresult : result.text = "" := by simpa [htyped] using h
      simp [htyped, Code.names_of_text_eq_empty hresult]
    · simp [htyped]

/-! ## What refers to nothing -/

@[simp] theorem names_documentationLine (s : String) :
    Code.Names P (documentationLine s).code := by
  rw [documentationLine]
  split <;> simp

@[simp] theorem names_documentation (texts : List String) : Names P (documentation texts) := by
  simp [documentation]

@[simp] theorem names_comment (text : Option String) : Names P (comment text) := by
  cases text <;> simp [comment]

@[simp] theorem names_privateMark : Names P privateMark := names_documentation _

@[simp] theorem names_banner (title : String) : Names P (banner title) := by
  simp [banner]

@[simp] theorem names_typeName (type : ScriptType) : Code.Names P (typeName type) := by
  cases type <;> simp [typeName]

@[simp] theorem names_elementType (field : Field) : Code.Names P (elementType field) := by
  induction field with
  | plain info => cases h : info.kind.scriptType? <;> simp [elementType, h]
  | map info key value _ ih => simp [elementType, ih]

@[simp] theorem names_fieldType (field : Field) : Code.Names P (fieldType field) := by
  rw [fieldType]
  split <;> simp

@[simp] theorem names_partialType (name : String) : Code.Names P (partialType name) := by
  simp [partialType]

@[simp] theorem names_cast {expression type : Code} :
    Code.Names P (cast language expression type) ↔
      Code.Names P expression ∧ (language.isTyped → Code.Names P type) := by
  rw [cast]
  split <;> simp [*]

theorem names_initialExpression {initial : Initial} {expression : Code}
    (h : initialExpression initial = some expression) : Code.Names P expression := by
  cases initial <;> cases h <;> simp

@[simp] theorem names_writeCondition (field : Field) (access : String) (emitDefaults : Bool) :
    Code.Names P (writeCondition field access emitDefaults) := by
  unfold writeCondition
  repeat' split
  all_goals simp

@[simp] theorem names_wireOperand (type : Option ScriptType) (expression : String) :
    Code.Names P (wireOperand type expression) := by
  unfold wireOperand
  split <;> simp

@[simp] theorem names_wireValue (type : Option ScriptType) (operation : String) :
    Code.Names P (wireValue type operation) := by
  unfold wireValue
  split <;> simp

@[simp] theorem names_packedValue (type : Option ScriptType) (operation : String) :
    Code.Names P (packedValue type operation) := by
  unfold packedValue
  split <;> simp

@[simp] theorem names_writeStatement (info : FieldInfo) (access : String) :
    Code.Names P (writeStatement language info access).code := by
  rw [writeStatement]
  split <;> simp

@[simp] theorem names_writeEntryValue (value : Field) :
    Code.Names P (writeEntryValue value).code := by
  rw [writeEntryValue]
  split <;> simp

@[simp] theorem names_writeField (field : Field) : Names P (writeField language field) := by
  cases field <;> simp [writeField, writeMap]

@[simp] theorem names_caseOf {label : List Code} {body : List Line} :
    Names P (caseOf label body) ↔ (∀ part ∈ label, Code.Names P part) ∧ Names P body := by
  simp [caseOf]

@[simp] theorem names_skipCase : Names P skipCase := by
  simp [skipCase]

@[simp] theorem names_readStatements (info : FieldInfo) (access : String) :
    Names P (readStatements info access) := by
  rw [readStatements]
  split
  case h_3 =>
    dsimp only
    split <;> simp
  all_goals simp

@[simp] theorem names_entryValueInitial (value : Field) :
    Code.Names P (entryValueInitial value) := by
  rw [entryValueInitial]
  split
  next h => exact names_initialExpression h
  all_goals simp

@[simp] theorem names_readEntryValue (value : Field) :
    Code.Names P (readEntryValue value).code := by
  rw [readEntryValue]
  split <;> simp

@[simp] theorem names_readEntry (key value : Field) (access : String) :
    Names P (readEntry key value access) := by
  have hkey : Code.Names P ((initialExpression key.info.initial).getD (inQuotes "")) := by
    cases h : initialExpression key.info.initial with
    | none => simp
    | some expression => exact names_initialExpression h
  simp [readEntry, hkey]

@[simp] theorem names_readField (field : Field) : Names P (readField field) := by
  cases field <;> simp [readField]

@[simp] theorem names_readCase (m : MessageDecl) (field : Field) : Names P (readCase m field) := by
  simp [readCase]

/-! ## Enums and types -/

@[simp] theorem names_object {name : String} {outermost : Bool} {mark : String}
    {body : List Line} : Names P (object name outermost mark body) ↔ Names P body := by
  cases outermost <;> simp [object, objectHead]

@[simp] theorem names_enumMethod {head : List Code} {cases : List Line} {otherwise : Code} :
    Names P (enumMethod head cases otherwise) ↔
      (∀ part ∈ head, Code.Names P part) ∧ Names P cases ∧ Code.Names P otherwise := by
  simp [enumMethod]

@[simp] theorem names_enumObject (outermost : Bool) (e : EnumDecl) :
    Names P (enumObject language outermost e) := by
  simp [enumObject, enumMember, names_flatMap]

@[simp] theorem names_interface (m : MessageDecl) : Names P (interface m) := by
  have hmember : ∀ field, Names P (interfaceMember field) := by
    intro field
    rw [interfaceMember]
    split <;> simp
  rw [interface]
  split <;> simp [names_flatMap, hmember]

theorem names_namespaceHead (name : String) (outermost : Bool) :
    ∀ part ∈ namespaceHead name outermost, Code.Names P part := by
  cases outermost <;> simp [namespaceHead]

mutual

theorem names_declarationTypes (outermost : Bool) (d : Decl) :
    Names P (declarationTypes outermost d) := by
  cases d with
  | enum e => simp [declarationTypes, enumType]
  | message m children =>
    have hnamespace : Names P
        (block (namespaceHead m.name outermost) (nestedTypes false children) "\x7d") :=
      names_block.2 ⟨names_namespaceHead m.name outermost, names_nestedTypes false children⟩
    rw [declarationTypes]
    split
    · exact names_nil
    · rw [names_append]
      refine ⟨names_interface m, ?_⟩
      split
      · exact names_nil
      · exact names_append.2 ⟨hnamespace, by simp⟩

theorem names_nestedTypes (outermost : Bool) (ds : List Decl) :
    Names P (nestedTypes outermost ds) := by
  cases ds with
  | nil => simp [nestedTypes]
  | cons d rest =>
    rw [nestedTypes, names_append]
    exact ⟨names_declarationTypes outermost d, names_nestedTypes outermost rest⟩

end

theorem names_typeSection (tree : FileTree) : Names P (typeSection language tree) := by
  rw [typeSection]
  split <;> simp [names_nestedTypes]

/-! ## The JSON form of bytes -/

/-- A field holds bytes: one value or several, or the values of a map. -/
inductive HoldsBytes : Field → Prop
  | plain {info : FieldInfo} : info.kind = .bytes → HoldsBytes (.plain info)
  | map {info value : FieldInfo} {key : Field} :
    value.kind = .bytes → HoldsBytes (.map info key (.plain value))

theorem valueType?_eq_bytes_iff {field : Field} :
    valueType? field = some .bytes ↔ ∃ info, field = .plain info ∧ info.kind = .bytes := by
  cases field with
  | plain info => cases h : info.kind <;> simp [valueType?, FieldKind.scriptType?, h]
  | map info key value => simp [valueType?]

theorem usesBytes_iff {field : Field} : usesBytes field = true ↔ HoldsBytes field := by
  cases field with
  | plain info =>
    simp only [usesBytes, decide_eq_true_eq, valueType?_eq_bytes_iff]
    constructor
    · rintro ⟨_, ⟨⟩, hkind⟩
      exact .plain hkind
    · intro h
      cases h with
      | plain hkind => exact ⟨info, rfl, hkind⟩
  | map info key value =>
    simp only [usesBytes, decide_eq_true_eq, valueType?_eq_bytes_iff]
    constructor
    · rintro ⟨_, rfl, hkind⟩
      exact .map hkind
    · intro h
      cases h with
      | map hkind => exact ⟨_, rfl, hkind⟩

/-- Only bytes take a function of the runtime library to their JSON form. -/
theorem names_jsonForm? (field : Field) (expression : String) :
    (∀ form ∈ jsonForm? field expression, Code.Names P form) ↔
      (valueType? field = some .bytes → P .base64Encoder) := by
  unfold jsonForm?
  split
  next h => split <;> simp [h]
  all_goals simp_all

theorem names_ofJsonForm? (field : Field) (expression : String) :
    (∀ form ∈ ofJsonForm? field expression, Code.Names P form) ↔
      (valueType? field = some .bytes → P .base64Decoder) := by
  unfold ofJsonForm?
  split
  all_goals simp_all

@[simp] theorem names_mapped {array : String} {element : Code} :
    Code.Names P (mapped language array element) ↔ Code.Names P element := by
  have hany : Code.Names P (anyParameter language "x") := by
    rw [anyParameter]
    split <;> simp
  simp [mapped, hany]

@[simp] theorem names_mappedEntries {object : String} {value : Code} :
    Code.Names P (mappedEntries object value) ↔ Code.Names P value := by
  simp [mappedEntries]

theorem names_fieldToJson {field : Field} {access : String} :
    Code.Names P (fieldToJson language field access) ↔
      (usesBytes field = true → P .base64Encoder) := by
  cases field with
  | map info key value =>
    rw [usesBytes, decide_eq_true_iff, ← names_jsonForm? value "value", fieldToJson]
    cases h : jsonForm? value "value" <;> simp
  | plain info =>
    rw [usesBytes, decide_eq_true_iff, fieldToJson]
    split
    · rw [← names_jsonForm? (.plain info) "x"]
      cases h : jsonForm? (.plain info) "x" <;> simp
    · rw [← names_jsonForm? (.plain info) access]
      cases h : jsonForm? (.plain info) access <;> simp

theorem names_fieldOfJson {field : Field} {json : String} :
    Code.Names P (fieldOfJson language field json) ↔
      (usesBytes field = true → P .base64Decoder) := by
  cases field with
  | map info key value =>
    rw [usesBytes, decide_eq_true_iff, ← names_ofJsonForm? value "value", fieldOfJson]
    cases h : ofJsonForm? value "value" <;> simp
  | plain info =>
    rw [usesBytes, decide_eq_true_iff, fieldOfJson]
    split
    · rw [← names_ofJsonForm? (.plain info) "x"]
      cases h : ofJsonForm? (.plain info) "x" <;> simp
    · split
      -- a single message is merged into the one that is there
      next h => simp [h]
      · rw [← names_ofJsonForm? (.plain info) json]
        cases h : ofJsonForm? (.plain info) json <;> simp

/-! ## Messages and services -/

@[simp] theorem names_shortMethod {doc : String} {head statement : List Code} :
    Names P (shortMethod doc head statement) ↔
      (∀ part ∈ head, Code.Names P part) ∧ ∀ part ∈ statement, Code.Names P part := by
  simp [shortMethod]

theorem names_conversionMethods {name : String} :
    Names P (conversionMethods language name) ↔
      P .binaryWriter ∧ P .binaryReader ∧ (language.isTyped = true → P .byteSource) := by
  simp [conversionMethods]
  tauto

@[simp] theorem names_initializeMethod (m : MessageDecl) :
    Names P (initializeMethod language m) := by
  have hmembers : Names P (initialMembers m) := by
    intro l hl
    obtain ⟨field, -, hfield⟩ := List.mem_filterMap.1 hl
    obtain ⟨expression, hexpression, rfl⟩ := Option.map_eq_some_iff.1 hfield
    simp [names_initialExpression hexpression]
  rw [initializeMethod]
  split <;> simp [hmembers]

theorem names_writeMethod {m : MessageDecl} :
    Names P (writeMethod language m) ↔ (language.isTyped = true → P .binaryWriter) := by
  simp [writeMethod, names_flatMap]

theorem names_readMethod {m : MessageDecl} :
    Names P (readMethod language m) ↔ (language.isTyped = true → P .binaryReader) := by
  simp [readMethod, names_flatMap]

theorem names_writeJsonMethod {options : Options} {m : MessageDecl} :
    Names P (writeJsonMethod options m) ↔
      ((∃ field ∈ m.fields, HoldsBytes field) → P .base64Encoder) := by
  have hfield : ∀ field, Names P (writeFieldJson options field) ↔
      (HoldsBytes field → P .base64Encoder) := by
    intro field
    simp [writeFieldJson, names_fieldToJson, usesBytes_iff]
  rw [writeJsonMethod]
  split <;> simp [names_flatMap, hfield]

theorem names_readJsonMethod {m : MessageDecl} :
    Names P (readJsonMethod language m) ↔
      ((∃ field ∈ m.fields, HoldsBytes field) → P .base64Decoder) := by
  have hfield : ∀ field, Names P (readFieldJson language field) ↔
      (HoldsBytes field → P .base64Decoder) := by
    intro field
    simp [readFieldJson, names_fieldOfJson, usesBytes_iff]
  simp [readJsonMethod, names_flatMap, hfield]

/-- All that the methods of a message refer to. The type of what is decoded is shown only in the
typed language. -/
theorem names_messageMethods {options : Options} {m : MessageDecl} :
    Names P (messageMethods options m) ↔
      P .binaryWriter ∧ P .binaryReader ∧ (options.language.isTyped = true → P .byteSource) ∧
        ((∃ field ∈ m.fields, HoldsBytes field) → P .base64Encoder ∧ P .base64Decoder) := by
  simp only [messageMethods, names_append, names_conversionMethods, names_initializeMethod,
    names_writeMethod, names_readMethod, names_writeJsonMethod, names_readJsonMethod, names_cons,
    names_nil, Line.code_blank, Code.names_nil]
  generalize (∃ field ∈ m.fields, HoldsBytes field) = bytes
  tauto

theorem names_client {tree : FileTree} {service : ServiceDecl} {protocol : Protocol}
    {method : MethodDecl} :
    Names P (client language tree service protocol method) ↔
      P protocol.request ∧ (language.isTyped = true → P .clientConfiguration) := by
  simp [client]
  tauto

@[simp] theorem names_conversions (target : TypeRef) : Code.Names P (conversions target) := by
  simp [conversions]

@[simp] theorem names_registration (tree : FileTree) (service : ServiceDecl) :
    Names P (registration language tree service) := by
  have hentry : ∀ method, Names P (methodEntry method) := by
    intro method
    simp [methodEntry]
  rw [registration]
  split <;> simp [names_flatMap, hentry]

theorem names_serviceLines {tree : FileTree} {service : ServiceDecl} :
    Names P (serviceLines language tree service) ↔
      (service.methods ≠ [] → P .binaryRequest ∧ P .jsonRequest ∧
        (language.isTyped = true → P .clientConfiguration)) := by
  have hinterface : Names P (serviceInterface service) := by
    simp [serviceInterface, names_flatMap]
  have hshown : Names P (if language.isTyped then serviceInterface service else []) := by
    split <;> simp [hinterface]
  simp only [serviceLines, names_append, names_banner, names_flatMap, names_client, hshown,
    names_registration, Protocol.binary, Protocol.json]
  cases service.methods with
  | nil => simp
  | cons method methods =>
    simp
    tauto

end

end Script

/-! ## The messages of a module -/

namespace Decl

theorem induct {motive : Decl → Prop} (enum : ∀ e, motive (.enum e))
    (message : ∀ m children, (∀ d ∈ children, motive d) → motive (.message m children)) :
    ∀ d, motive d :=
  @Decl.rec motive (fun ds => ∀ d ∈ ds, motive d) enum message (List.forall_mem_nil _)
    fun _ _ hd hds => List.forall_mem_cons.2 ⟨hd, hds⟩

/-- A message is part of the generated code of a declaration: it is no map entry, and neither is a
message that it is nested in. -/
inductive Emits : Decl → MessageDecl → Prop
  | self {m : MessageDecl} {children : List Decl} :
    m.isMapEntry = false → Emits (.message m children) m
  | nested {m m' : MessageDecl} {children : List Decl} {d : Decl} :
    m.isMapEntry = false → d ∈ children → d.Emits m' → Emits (.message m children) m'

theorem not_emits_enum {e : EnumDecl} {m : MessageDecl} : ¬ (enum e).Emits m := by
  intro h
  cases h

theorem emits_message_iff {m m' : MessageDecl} {children : List Decl} :
    (message m children).Emits m' ↔
      m.isMapEntry = false ∧ (m' = m ∨ ∃ d ∈ children, d.Emits m') := by
  constructor
  · intro h
    cases h with
    | self hentry => exact ⟨hentry, .inl rfl⟩
    | nested hentry hd h => exact ⟨hentry, .inr ⟨_, hd, h⟩⟩
  · rintro ⟨hentry, rfl | ⟨d, hd, h⟩⟩
    · exact .self hentry
    · exact .nested hentry hd h

/-- What is declared inside a declaration. -/
def children : Decl → List Decl
  | enum _ => []
  | message _ children => children

/-- A declaration holds nothing if it is a map entry. -/
def BareEntry (d : Decl) : Prop := d.asMapEntry.isSome = true → d.children = []

/-- The walk through the declarations of a file enters map entries, while printing does not. It
makes no difference if there is nothing in them. -/
theorem emits_iff_mem_walk {d : Decl} (hbare : ∀ d' ∈ d.walk, d'.BareEntry) {m : MessageDecl} :
    d.Emits m ↔ m.isMapEntry = false ∧ ∃ children, .message m children ∈ d.walk := by
  induction d using Decl.induct with
  | enum e => simp [not_emits_enum, walk]
  | message m' children ih =>
    have hchild : ∀ d ∈ children, d.Emits m ↔
        m.isMapEntry = false ∧ ∃ children, .message m children ∈ d.walk := by
      intro d hd
      apply ih d hd
      intro d' hd'
      apply hbare d'
      rw [walk]
      exact List.mem_cons_of_mem _ (mem_walkAll.2 ⟨d, hd, hd'⟩)
    have hmem : (∃ children', .message m children' ∈ walk (.message m' children)) ↔
        m = m' ∨ ∃ d ∈ children, ∃ children', .message m children' ∈ d.walk := by
      simp only [walk, List.mem_cons, message.injEq, mem_walkAll]
      grind
    rw [emits_message_iff, hmem]
    cases hentry : m'.isMapEntry with
    | false =>
      constructor
      · rintro ⟨-, rfl | ⟨d, hd, h⟩⟩
        · exact ⟨hentry, .inl rfl⟩
        · obtain ⟨hm, hwalk⟩ := (hchild d hd).1 h
          exact ⟨hm, .inr ⟨d, hd, hwalk⟩⟩
      · rintro ⟨hm, rfl | ⟨d, hd, hwalk⟩⟩
        · exact ⟨rfl, .inl rfl⟩
        · exact ⟨rfl, .inr ⟨d, hd, (hchild d hd).2 ⟨hm, hwalk⟩⟩⟩
    | true =>
      have hnone : children = [] := by
        apply hbare (.message m' children) (by simp [walk])
        simp [asMapEntry, hentry]
      constructor
      · rintro ⟨⟨⟩, -⟩
      · rintro ⟨hm, rfl | ⟨d, hd, -⟩⟩
        · cases hm.symm.trans hentry
        · simp [hnone] at hd

end Decl

/-- A message is part of the module of a file. -/
def FileTree.Emits (tree : FileTree) (m : MessageDecl) : Prop := ∃ d ∈ tree.types, d.Emits m

namespace Script

theorem mem_emittedMessages_iff {tree : FileTree} (hbare : ∀ d ∈ tree.walk, d.BareEntry)
    {m : MessageDecl} : m ∈ emittedMessages tree ↔ tree.Emits m := by
  have hmem : m ∈ emittedMessages tree ↔
      m.isMapEntry = false ∧ ∃ children, .message m children ∈ tree.walk := by
    rw [emittedMessages, List.mem_filterMap]
    constructor
    · rintro ⟨d, hd, h⟩
      cases d with
      | enum e => cases h
      | message m' children =>
        simp only at h
        split at h
        · cases h
        next hentry =>
          cases h
          exact ⟨Bool.eq_false_of_not_eq_true hentry, children, hd⟩
    · rintro ⟨hentry, children, hd⟩
      exact ⟨_, hd, by simp [hentry]⟩
  have hwalk : ∀ d, d ∈ tree.walk ↔ ∃ d' ∈ tree.types, d ∈ d'.walk := fun d => Decl.mem_walkAll
  rw [hmem, FileTree.Emits]
  simp only [hwalk] at hbare ⊢
  constructor
  · rintro ⟨hentry, children, d, hd, hmem⟩
    exact ⟨d, hd, (Decl.emits_iff_mem_walk fun d' hd' => hbare d' ⟨d, hd, hd'⟩).2
      ⟨hentry, children, hmem⟩⟩
  · rintro ⟨d, hd, h⟩
    obtain ⟨hentry, children, hmem⟩ :=
      (Decl.emits_iff_mem_walk fun d' hd' => hbare d' ⟨d, hd, hd'⟩).1 h
    exact ⟨hentry, children, d, hd, hmem⟩

section

variable {P : RuntimeName → Prop} {options : Options}

theorem names_nestedObjects {ds : List Decl} :
    Names P (nestedObjects options ds) ↔ ∀ d ∈ ds, Names P (declarationObject options false d) := by
  induction ds with
  | nil => simp [nestedObjects]
  | cons d ds ih =>
    rw [nestedObjects, names_append, ih, List.forall_mem_cons]
    apply and_congr_left'
    split
    · simp
    next hentry =>
      cases d with
      | enum e => simp [Decl.asMapEntry] at hentry
      | message m children =>
        have hm : m.isMapEntry = true := by simpa [Decl.asMapEntry] using hentry
        rw [declarationObject, if_pos hm]

theorem names_declarationObject {outermost : Bool} {d : Decl} :
    Names P (declarationObject options outermost d) ↔
      ∀ m, d.Emits m → Names P (messageMethods options m) := by
  induction d using Decl.induct generalizing outermost with
  | enum e => simp [declarationObject, Decl.not_emits_enum]
  | message m children ih =>
    rw [declarationObject]
    split
    next hentry => simp [hentry, Decl.emits_message_iff]
    next hentry =>
      have hm : m.isMapEntry = false := Bool.eq_false_of_not_eq_true hentry
      rw [names_append, names_object, names_append, names_nestedObjects]
      constructor
      · rintro ⟨-, hself, hchildren⟩ m' hm'
        cases hm' with
        | self => exact hself
        | nested _ hd h => exact (ih _ hd).1 (hchildren _ hd) m' h
      · intro h
        refine ⟨names_comment _, h m (.self hm), ?_⟩
        intro d hd
        exact (ih d hd).2 fun m' hm' => h m' (.nested hm hd hm')

theorem names_codecSection {tree : FileTree} :
    Names P (codecSection options tree) ↔
      ∀ m, tree.Emits m → Names P (messageMethods options m) := by
  have hobjects : Names P (tree.types.flatMap (declarationObject options true)) ↔
      ∀ m, tree.Emits m → Names P (messageMethods options m) := by
    simp only [names_flatMap, names_declarationObject, FileTree.Emits]
    exact ⟨fun h m hm => by obtain ⟨d, hd, hm⟩ := hm; exact h d hd m hm,
      fun h d hd m hm => h m ⟨d, hd, hm⟩⟩
  rw [← hobjects, codecSection]
  cases htypes : tree.types <;> simp

theorem names_body {tree : FileTree} :
    Names P (body options tree) ↔
      (∀ service ∈ tree.services, Names P (serviceLines options.language tree service)) ∧
        ∀ m, tree.Emits m → Names P (messageMethods options m) := by
  simp only [body, names_append, names_typeSection, true_and, names_flatMap, names_codecSection]

end

/-! ## What a module uses and what it imports -/

/-- Lines refer to a name of the runtime library. Such names are parts of their own in code. -/
def Mentions (name : RuntimeName) (lines : List Line) : Prop := ∃ l ∈ lines, .runtime name ∈ l.code

theorem mentions_iff {name : RuntimeName} {lines : List Line} :
    Mentions name lines ↔ ¬ Names (· ≠ name) lines := by
  simp only [Mentions, Names, Code.Names]
  grind

/-- The module of a file has use for a name of the runtime library: messages read and write
themselves, take bytes to base64 and back, and methods of services send requests. Types are of use
in the typed language. -/
def Uses (language : Language) (tree : FileTree) : RuntimeName → Prop
  | .binaryReader | .binaryWriter => ∃ m, tree.Emits m
  | .byteSource => language.isTyped = true ∧ ∃ m, tree.Emits m
  | .base64Decoder | .base64Encoder => ∃ m, tree.Emits m ∧ ∃ field ∈ m.fields, HoldsBytes field
  | .jsonRequest | .binaryRequest => ∃ service ∈ tree.services, service.methods ≠ []
  | .clientConfiguration =>
    language.isTyped = true ∧ ∃ service ∈ tree.services, service.methods ≠ []

theorem mentions_body_iff {options : Options} {tree : FileTree} {name : RuntimeName} :
    Mentions name (body options tree) ↔ Uses options.language tree name := by
  rw [mentions_iff, names_body]
  simp only [names_serviceLines, names_messageMethods]
  cases name <;> simp [Uses]
  case byteSource => exact and_comm
  case clientConfiguration =>
    constructor
    · rintro ⟨service, hservice, hmethods, htyped⟩
      exact ⟨htyped, service, hservice, hmethods⟩
    · rintro ⟨htyped, service, hservice, hmethods⟩
      exact ⟨service, hservice, hmethods, htyped⟩

/-- The statement by which a name of the runtime library is imported: types are imported as such. -/
def RuntimeName.keyword : RuntimeName → String
  | byteSource | clientConfiguration => "import type"
  | _ => "import"

/-- The header of a module imports a name of the runtime library. -/
def Imported (language : Language) (tree : FileTree) (name : RuntimeName) : Prop :=
  ∃ names, name ∈ names ∧ (ImportStatement.runtime name.keyword names).line ∈ header language tree

theorem mem_header_of_mem_imports {language : Language} {tree : FileTree} {l : Line}
    (h : l ∈ imports language tree) : l ∈ header language tree := by
  have hne : (imports language tree).isEmpty = false :=
    List.isEmpty_eq_false_iff.2 (List.ne_nil_of_mem h)
  rw [header, hne]
  exact List.mem_append_right _ (List.mem_append_left _ h)

theorem ImportStatement.names_line_runtime {P : RuntimeName → Prop} {keyword : String}
    {names : List RuntimeName} :
    Code.Names P (ImportStatement.runtime keyword names).line.code ↔ ∀ name ∈ names, P name := by
  simp [ImportStatement.line]

theorem names_importLine {P : RuntimeName → Prop} {keyword : String} {names : List RuntimeName} :
    Names P (importLine keyword (names.map runtime) runtimeModule) ↔ ∀ name ∈ names, P name := by
  rw [ImportStatement.importLine_eq, ImportStatement.ofRuntime]
  cases names <;> simp [ImportStatement.names_line_runtime]

/-- The header refers to the names that it imports and to no other. -/
theorem names_header {P : RuntimeName → Prop} {language : Language} {tree : FileTree} :
    Names P (header language tree) ↔ ∀ name ∈ runtimeNames language tree, P name := by
  have himports : Names P (imports language tree) ↔
      ∀ name ∈ runtimeNames language tree, P name := by
    rw [imports, runtimeNames, List.forall_mem_append, names_append, names_append, names_importLine]
    split <;> simp [names_importLine]
  rw [← himports, header]
  cases himport : imports language tree <;> simp

theorem imported_iff {language : Language} {tree : FileTree} {name : RuntimeName} :
    Imported language tree name ↔ name ∈ runtimeNames language tree := by
  have hstatement : ∀ keyword names, name ∈ names →
      (ImportStatement.runtime keyword names).line ∈
        importLine keyword (names.map runtime) runtimeModule := by
    intro keyword names hname
    rw [ImportStatement.importLine_eq, ImportStatement.ofRuntime,
      List.isEmpty_eq_false_iff.2 (List.ne_nil_of_mem hname)]
    exact List.mem_singleton_self _
  constructor
  · rintro ⟨names, hname, hline⟩
    -- a line of the header that imports the name refers to it
    by_contra hnot
    have hother : Names (· ≠ name) (header language tree) :=
      names_header.2 fun other hother heq => hnot (heq ▸ hother)
    exact ImportStatement.names_line_runtime.1 (hother _ hline) name hname rfl
  · intro h
    rw [runtimeNames, List.mem_append] at h
    rcases h with htype | hvalue
    · split at htype
      next htyped =>
        have hkeyword : name.keyword = "import type" := by
          have hmem := (List.mem_filter.1 htype).1
          revert hmem
          cases name <;> simp [runtimeTypes, RuntimeName.keyword]
        refine ⟨_, htype, mem_header_of_mem_imports ?_⟩
        rw [hkeyword, imports, if_pos htyped]
        exact List.mem_append_left _ (List.mem_append_left _ (hstatement _ _ htype))
      · cases htype
    · have hkeyword : name.keyword = "import" := by
        have hmem := (List.mem_filter.1 hvalue).1
        revert hmem
        cases name <;> simp [runtimeValues, RuntimeName.keyword]
      refine ⟨_, hvalue, mem_header_of_mem_imports ?_⟩
      rw [hkeyword, imports]
      exact List.mem_append_left _ (List.mem_append_right _ (hstatement _ _ hvalue))

theorem mem_runtimeNames_iff {language : Language} {tree : FileTree} {name : RuntimeName} :
    name ∈ runtimeNames language tree ↔
      (name ∈ runtimeTypes → language.isTyped = true) ∧ needs tree name = true := by
  rw [runtimeNames, List.mem_append, List.mem_filter]
  cases htyped : language.isTyped <;> cases name <;> simp [runtimeTypes, runtimeValues]

section

variable {tree : FileTree}

theorem emittedMessages_isEmpty (hbare : ∀ d ∈ tree.walk, d.BareEntry) :
    (emittedMessages tree).isEmpty = false ↔ ∃ m, tree.Emits m := by
  simp only [← mem_emittedMessages_iff hbare, List.isEmpty_eq_false_iff_exists_mem]

theorem any_usesBytes_emittedMessages (hbare : ∀ d ∈ tree.walk, d.BareEntry) :
    (emittedMessages tree).any (·.fields.any usesBytes) = true ↔
      ∃ m, tree.Emits m ∧ ∃ field ∈ m.fields, HoldsBytes field := by
  simp only [List.any_eq_true, usesBytes_iff, mem_emittedMessages_iff hbare]

/-- What the module has use for is needed according to the walk through the file. -/
theorem needs_of_uses (hbare : ∀ d ∈ tree.walk, d.BareEntry) {language : Language}
    {name : RuntimeName} (h : Uses language tree name) : needs tree name = true := by
  have hservices : (∃ service ∈ tree.services, service.methods ≠ []) →
      (!tree.services.isEmpty) = true := by
    rintro ⟨service, hservice, -⟩
    rw [List.isEmpty_eq_false_iff.2 (List.ne_nil_of_mem hservice), Bool.not_false]
  have hmessages : (∃ m, tree.Emits m) → (!(emittedMessages tree).isEmpty) = true := by
    intro hm
    rw [(emittedMessages_isEmpty hbare).2 hm, Bool.not_false]
  cases name with
  | binaryReader | binaryWriter => exact hmessages h
  | byteSource => exact hmessages h.2
  | base64Decoder | base64Encoder => exact (any_usesBytes_emittedMessages hbare).2 h
  | jsonRequest | binaryRequest => exact hservices h
  | clientConfiguration => exact hservices h.2

end

/-- Every name of the runtime library that the module of a file refers to is imported in its
header, and the functions for base64 are imported just if some message of the module, at any depth,
holds bytes. -/
theorem runtime_imported (options : Options) (tree : FileTree)
    (hbare : ∀ d ∈ tree.walk, d.BareEntry) :
    (∀ name, Mentions name (body options tree) → Imported options.language tree name) ∧
    (∀ name ∈ [RuntimeName.base64Encoder, .base64Decoder],
      (Imported options.language tree name ↔
        ∃ m, tree.Emits m ∧ ∃ field ∈ m.fields, HoldsBytes field)) ∧
    ∀ name, Mentions name (body options tree) ↔ Uses options.language tree name := by
  refine ⟨?_, ?_, fun name => mentions_body_iff⟩
  · intro name hmentions
    have huses := mentions_body_iff.1 hmentions
    rw [imported_iff, mem_runtimeNames_iff]
    refine ⟨?_, needs_of_uses hbare huses⟩
    intro htype
    rcases List.mem_pair.1 htype with rfl | rfl
    · exact huses.1
    · exact huses.1
  · intro name hname
    have hvalue : name ∉ runtimeTypes := by
      rcases List.mem_pair.1 hname with rfl | rfl <;> decide
    rw [imported_iff, mem_runtimeNames_iff, ← any_usesBytes_emittedMessages hbare,
      and_iff_right fun htype => absurd htype hvalue]
    rcases List.mem_pair.1 hname with rfl | rfl
    · exact Iff.rfl
    · exact Iff.rfl

/-- Shelves have labels, which are bytes, and are nested in a cellar that a service opens. -/
def cellar : List FileDescriptor :=
  [{ name := some "cellar.proto", package := "cellar", dialect := "proto3"
     messages := [
       { name := "Cellar"
         nested := [
           { name := "Shelf"
             fields := [
               { name := "labels", number := 1, label := .repeated, type := .message,
                 typeName := ".cellar.Cellar.Shelf.LabelsEntry" }]
             nested := [
               { name := "LabelsEntry"
                 fields := [
                   { name := "key", number := 1, type := .string },
                   { name := "value", number := 2, type := .bytes }]
                 isMapEntry := true }] }] }]
     services := [
       { name := "Cellars"
         methods := [
           { name := "Open", inputType := ".cellar.Cellar", outputType := ".cellar.Cellar" }] }] }]

/-- The labels of the shelves need base64, although they are deep in the cellar. -/
theorem runtime_imported_cellar :
    ∃ tree, FileTree.build cellar ["cellar.proto"] .typeScript = .ok [tree] ∧
      (∀ d ∈ tree.walk, d.BareEntry) ∧
      Mentions .base64Decoder (body { language := .typeScript } tree) ∧
      Imported .typeScript tree .base64Decoder ∧
      Imported .typeScript tree .clientConfiguration := by
  have hfacts : (FileTree.build cellar ["cellar.proto"] .typeScript).map
      (List.map fun tree =>
        ((tree.walk.filter (·.asMapEntry.isSome)).map (·.children.isEmpty),
          (emittedMessages tree).any (·.fields.any usesBytes),
          tree.services.map (·.methods.isEmpty))) =
        .ok [([true], true, [false])] := by
    cbv
  cases hbuild : FileTree.build cellar ["cellar.proto"] .typeScript with
  | error e =>
    rw [hbuild] at hfacts
    cases hfacts
  | ok trees =>
    rw [hbuild] at hfacts
    obtain ⟨tree, rfl, htree⟩ := List.map_eq_singleton_iff.1 (Except.ok.inj hfacts)
    simp only [Prod.mk.injEq] at htree
    obtain ⟨hentries, hbytes, hservices⟩ := htree
    have hbare : ∀ d ∈ tree.walk, d.BareEntry := by
      intro d hd hentry
      have hmem : d.children.isEmpty ∈ [true] :=
        hentries ▸ List.mem_map_of_mem (List.mem_filter.2 ⟨hd, hentry⟩)
      exact List.isEmpty_iff.1 (List.mem_singleton.1 hmem)
    obtain ⟨service, hservice, hmethods⟩ := List.map_eq_singleton_iff.1 hservices
    have hclients : Uses .typeScript tree .clientConfiguration := by
      refine ⟨rfl, service, hservice ▸ List.mem_cons_self, ?_⟩
      exact List.isEmpty_eq_false_iff.1 hmethods
    obtain ⟨himports, hbase64, hmentions⟩ :=
      runtime_imported { language := .typeScript } tree hbare
    have hholds := (any_usesBytes_emittedMessages hbare).1 hbytes
    exact ⟨tree, rfl, hbare, (hmentions .base64Decoder).2 hholds,
      (hbase64 .base64Decoder (by decide)).2 hholds,
      himports .clientConfiguration ((hmentions .clientConfiguration).2 hclients)⟩

end Script

end ProtoStub
