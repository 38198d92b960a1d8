import ProtoStub.Proofs.Brackets

/-!
# The texts that a module shows

A module shows the names, comments and paths of its file (`shownTexts`), and texts that are made of
them. If the former have no brackets (`AllBare`), then the latter have none.
-/

namespace ProtoStub.Script

open Brackets

/-- The names in a kind of fields. -/
def kindTexts : FieldKind → List String
  | .enum target | .message target => [target.localName]
  | _ => []

/-- The names in what a field holds at first. -/
def initialTexts : Initial → List String
  | .enumZero target => [target.localName]
  | _ => []

/-- The names and the comment of what is known of a field. -/
def infoTexts (info : FieldInfo) : List String :=
  [info.name, info.protoName, info.jsonName, info.operations.read, info.operations.write] ++
    info.customJsonName.toList ++ info.operations.packedRead.toList ++ info.comment.toList ++
    kindTexts info.kind ++ initialTexts info.initial

/-- The names and comments of a field. -/
def fieldTexts : Field → List String
  | .plain info => infoTexts info
  | .map info key value => infoTexts info ++ fieldTexts key ++ fieldTexts value

/-- The names and comments of an enum. -/
def enumTexts (e : EnumDecl) : List String :=
  [e.name, e.shortName] ++ e.comment.toList ++
    e.values.flatMap fun v => v.name :: v.comment.toList

/-- The names and comments of a message, without those of what is nested in it. -/
def messageTexts (m : MessageDecl) : List String :=
  [m.name, m.shortName] ++ m.comment.toList ++ m.fields.flatMap fieldTexts

/-- The names and comments of a declaration, without those of what is nested in it. -/
def declTexts : Decl → List String
  | .enum e => enumTexts e
  | .message m _ => messageTexts m

/-- The names and the comment of a method. -/
def methodTexts (method : MethodDecl) : List String :=
  [method.name, method.input.shortName, method.input.localName, method.output.localName] ++
    method.comment.toList

/-- The names and comments of a service. -/
def serviceTexts (service : ServiceDecl) : List String :=
  service.name :: service.comment.toList ++ service.methods.flatMap methodTexts

/-- The paths and names of imports. -/
def importTexts (table : ImportTable) : List String :=
  table.byPath.flatMap fun p => p.1 :: p.2.flatMap fun q => [q.1, q.2]

/-- The names, comments and paths of a file that its module shows. -/
def shownTexts (tree : FileTree) : List String :=
  [tree.name, tree.package] ++ tree.walk.flatMap declTexts ++
    tree.services.flatMap serviceTexts ++ importTexts tree.imports

/-- Texts have no brackets. -/
def AllBare (texts : List String) : Prop := ∀ s ∈ texts, Bare s

theorem AllBare.mono {texts texts' : List String} (h : AllBare texts) (hsub : texts' ⊆ texts) :
    AllBare texts' :=
  fun s hs => h s (hsub hs)

theorem allBare_info {field : Field} (h : AllBare (fieldTexts field)) :
    AllBare (infoTexts field.info) := by
  cases field with
  | plain info => exact h
  | map info key value =>
    refine h.mono fun s hs => ?_
    rw [fieldTexts, List.append_assoc]
    exact List.mem_append_left _ hs

theorem allBare_key {info : FieldInfo} {key value : Field}
    (h : AllBare (fieldTexts (.map info key value))) : AllBare (fieldTexts key) := by
  refine h.mono fun s hs => ?_
  rw [fieldTexts]
  exact List.mem_append_left _ (List.mem_append_right _ hs)

theorem allBare_value {info : FieldInfo} {key value : Field}
    (h : AllBare (fieldTexts (.map info key value))) : AllBare (fieldTexts value) := by
  refine h.mono fun s hs => ?_
  rw [fieldTexts]
  exact List.mem_append_right _ hs

section Info

variable {info : FieldInfo} (h : AllBare (infoTexts info))
include h

theorem AllBare.name : Bare info.name := h _ (by simp [infoTexts])

theorem AllBare.outputName (protoNames : Bool) : Bare (info.outputName protoNames) := by
  rw [FieldInfo.outputName]
  split <;> exact h _ (by simp [infoTexts])

theorem AllBare.readNames : ∀ name ∈ info.readNames, Bare name := by
  intro name hname
  rw [FieldInfo.readNames, List.mem_eraseDups] at hname
  simp only [List.mem_append, List.mem_cons, List.not_mem_nil, or_false, Option.mem_toList] at hname
  rcases hname with hname | rfl | rfl
  · exact h _ (by simp [infoTexts, Option.mem_def.1 hname])
  · exact bare_camelCase (h _ (by simp [infoTexts]))
  · exact h _ (by simp [infoTexts])

theorem AllBare.read : Bare info.operations.read := h _ (by simp [infoTexts])

theorem AllBare.write : Bare info.operations.write := h _ (by simp [infoTexts])

theorem AllBare.packedRead {operation : String}
    (hread : info.operations.packedRead = some operation) : Bare operation :=
  h _ (by simp [infoTexts, hread])

theorem AllBare.comment : ∀ s ∈ info.comment, Bare s := by
  intro s hs
  exact h _ (by simp [infoTexts, Option.mem_def.1 hs])

theorem AllBare.enumZero {target : TypeRef} (hinitial : info.initial = .enumZero target) :
    Bare target.localName :=
  h _ (by simp [infoTexts, initialTexts, hinitial])

end Info

/-- A type names no type with a bracket in its name. -/
def BareType : ScriptType → Prop
  | .enum target | .message target => Bare target.localName
  | _ => True

theorem AllBare.type {info : FieldInfo} (h : AllBare (infoTexts info)) :
    ∀ type ∈ info.kind.scriptType?, BareType type := by
  have hkind : AllBare (kindTexts info.kind) := h.mono fun s hs => by simp [infoTexts, hs]
  intro type htype
  cases hk : info.kind <;> rw [hk] at htype hkind <;> cases htype <;>
    first
    | trivial
    | exact hkind _ List.mem_cons_self

theorem AllBare.valueType {field : Field} (h : AllBare (fieldTexts field)) :
    ∀ type ∈ valueType? field, BareType type := by
  cases field with
  | plain info => exact AllBare.type h
  | map => nofun

/-! ## Declarations and services -/

section Decls

variable {m : MessageDecl} {e : EnumDecl} {method : MethodDecl} {service : ServiceDecl}
  {tree : FileTree}

theorem AllBare.shortName (h : AllBare (messageTexts m)) : Bare m.shortName :=
  h _ (by simp [messageTexts])

theorem AllBare.fields (h : AllBare (messageTexts m)) {field : Field} (hfield : field ∈ m.fields) :
    AllBare (fieldTexts field) :=
  h.mono fun _ hs => List.mem_append_right _ (List.mem_flatMap.2 ⟨field, hfield, hs⟩)

theorem AllBare.messageComment (h : AllBare (messageTexts m)) : ∀ s ∈ m.comment, Bare s :=
  fun s hs => h _ (by simp [messageTexts, Option.mem_def.1 hs])

theorem AllBare.values (h : AllBare (enumTexts e)) {v : EnumValueDecl} (hv : v ∈ e.values) :
    Bare v.name ∧ ∀ s ∈ v.comment, Bare s := by
  have hmem : ∀ s ∈ v.name :: v.comment.toList, s ∈ enumTexts e :=
    fun _ hs => List.mem_append_right _ (List.mem_flatMap.2 ⟨v, hv, hs⟩)
  refine ⟨h _ (hmem _ List.mem_cons_self), fun s hs => h _ (hmem _ ?_)⟩
  exact List.mem_cons_of_mem _ (Option.mem_toList.2 hs)

theorem AllBare.enumComment (h : AllBare (enumTexts e)) : ∀ s ∈ e.comment, Bare s :=
  fun s hs => h _ (by simp [enumTexts, Option.mem_def.1 hs])

theorem AllBare.methodComment (h : AllBare (methodTexts method)) : ∀ s ∈ method.comment, Bare s :=
  fun s hs => h _ (by simp [methodTexts, Option.mem_def.1 hs])

theorem AllBare.input (h : AllBare (methodTexts method)) : Bare method.input.localName :=
  h _ (by simp [methodTexts])

theorem AllBare.output (h : AllBare (methodTexts method)) : Bare method.output.localName :=
  h _ (by simp [methodTexts])

theorem AllBare.methodName (h : AllBare (methodTexts method)) : Bare method.name :=
  h _ (by simp [methodTexts])

theorem AllBare.parameter (h : AllBare (methodTexts method)) :
    Bare (parameterName method.input.shortName) :=
  bare_parameterName (h _ (by simp [methodTexts]))

theorem AllBare.serviceName (h : AllBare (serviceTexts service)) : Bare service.name :=
  h _ (by simp [serviceTexts])

theorem AllBare.methods (h : AllBare (serviceTexts service)) (hmethod : method ∈ service.methods) :
    AllBare (methodTexts method) :=
  h.mono fun _ hs => List.mem_append_right _ (List.mem_flatMap.2 ⟨method, hmethod, hs⟩)

theorem bare_servicePath (hpackage : Bare tree.package) (h : Bare service.name) :
    Bare (tree.servicePath service) := by
  rw [FileTree.servicePath]
  split
  · exact h
  · exact bare_append.2 ⟨bare_append.2 ⟨hpackage, bare_text rfl⟩, h⟩

end Decls

end ProtoStub.Script
