import ProtoStub.Proofs.PrintedLines
import ProtoStub.Proofs.ShownTexts

/-!
# Brackets nest in types and methods

The types of a module and the methods that write and read messages are neat lines, whatever the
fields of a message are. An expression leaves the brackets as they are (`Balanced`), and the head of
a function opens a brace (`turns_signature`).

Three places are not made of single-line statements and simple blocks: the writer of a map opens a
call and a function in one line (`neat_writeMap`), so does the reader of a map (`neat_readEntry`),
and the reader of a field that may be packed closes a block and opens another in one line
(`neat_readStatements`).
-/

namespace ProtoStub.Script

open Brackets

/-! ## Lines of text -/

theorem neat_parts {parts : List Code} {cs : List Char} (h : Fits parts cs)
    (hcs : scan [] cs = some []) : Neat [line parts] :=
  neat_line (h.turns hcs)

theorem neat_text {s : String} (h : Bare s) : Neat [line [s]] :=
  neat_parts (.name h .nil) rfl

theorem neat_documentation {texts : List String} (h : ∀ s ∈ texts, Bare s) :
    Neat (documentation texts) := by
  refine (neat_text (bare_text rfl)).cons (.append (neat_of_forall ?_) (neat_text (bare_text rfl)))
  intro l hl
  obtain ⟨s, hs, rfl⟩ := List.mem_map.1 hl
  apply neat_text
  split
  · exact bare_text rfl
  · exact bare_append.2 ⟨bare_text rfl, h s hs⟩

theorem neat_comment {o : Option String} (h : ∀ s ∈ o, Bare s) : Neat (comment o) := by
  cases o with
  | none => exact neat_nil
  | some s =>
    refine neat_documentation fun t ht => ?_
    obtain ⟨line, hline, rfl⟩ := List.mem_map.1 ht
    exact all_commentText (by decide) (Text.all_of_mem_lines (h s rfl) hline)

theorem neat_privateMark : Neat privateMark :=
  neat_documentation (List.forall_mem_singleton.2 (bare_text rfl))

theorem bare_spaces (n : Nat) : Bare (spaces n) := by
  rw [spaces, Bare, Text.all_ofList]
  intro c hc
  rw [List.eq_of_mem_replicate hc]
  decide

theorem neat_banner {title : String} (h : Bare title) : Neat (banner title) := by
  have hslashes : Bare "//" := bare_text rfl
  have hrule : Neat [line [bannerRule]] :=
    neat_text (bare_append.2 ⟨bare_append.2 ⟨hslashes, bare_text rfl⟩, hslashes⟩)
  refine hrule.cons (.cons (neat_text ?_) (hrule.cons neat_blank))
  rw [bannerTitle]
  split
  · simp only [bare_append]
    exact ⟨⟨bare_text rfl, h⟩, bare_text rfl⟩
  · simp only [bare_append]
    exact ⟨⟨⟨⟨hslashes, bare_spaces _⟩, h⟩, bare_spaces _⟩, hslashes⟩

/-! ## Types and expressions -/

theorem bare_property {field : Field} (h : AllBare (fieldTexts field)) : Bare (property field) :=
  bare_append.2 ⟨bare_text rfl, (allBare_info h).name⟩

theorem balanced_typeName {type : ScriptType} (h : BareType type) : Balanced (typeName type) := by
  cases type
  case enum target => exact balanced_ref h
  case message target => exact balanced_ref h
  all_goals exact balanced_text (bare_text rfl)

theorem balanced_elementType {field : Field} (h : AllBare (fieldTexts field)) :
    Balanced (elementType field) := by
  induction field with
  | plain info =>
    rw [elementType]
    cases htype : info.kind.scriptType? with
    | none => exact ⟨rfl⟩
    | some type => exact balanced_typeName (AllBare.type h type htype)
  | map info key value _ ih =>
    exact Fits.turns (.text <| .code (ih (allBare_value h)) <| .text .nil) rfl

theorem balanced_fieldType {field : Field} (h : AllBare (fieldTexts field)) :
    Balanced (fieldType field) := by
  have helement := balanced_elementType h
  rw [fieldType]
  split
  · exact Fits.turns (.code helement <| .text .nil) rfl
  · exact helement

theorem balanced_partialType {name : String} (h : Bare name) : Balanced (partialType name) :=
  Fits.turns (.text <| .name h <| .text .nil) rfl

theorem balanced_initialExpression {info : FieldInfo} (h : AllBare (infoTexts info)) {c : Code}
    (hc : initialExpression info.initial = some c) : Balanced c := by
  cases hinitial : info.initial <;> rw [hinitial] at hc <;> cases hc
  case enumZero target =>
    exact Fits.turns (.ref (h.enumZero hinitial) <| .text .nil) rfl
  case emptyText => exact balanced_text (bare_inQuotes (bare_text rfl))
  all_goals exact turns_text rfl

theorem balanced_writeCondition {field : Field} {access : String} (h : AllBare (fieldTexts field))
    (haccess : Bare access) (emitDefaults : Bool) :
    Balanced (writeCondition field access emitDefaults) := by
  have hdefined : Balanced (code [access, " != undefined"]) :=
    Fits.turns (.name haccess <| .text .nil) rfl
  have hlength : Balanced (code [access, "?.length"]) :=
    Fits.turns (.name haccess <| .text .nil) rfl
  rw [writeCondition]
  split
  · split
    · exact hdefined
    · exact Fits.turns (.name haccess <| .text <| .name haccess <| .text .nil) rfl
  split
  · split
    · exact hdefined
    · exact hlength
  split
  · exact hdefined
  split
  · split
    · exact Fits.turns (.name haccess <| .text <| .name haccess <| .text .nil) rfl
    · exact balanced_text haccess
  · exact hlength
  next target htype =>
    have htarget : Bare target.localName := h.valueType _ htype
    exact Fits.turns (.name haccess <| .text <| .ref htarget <| .text <| .name haccess <|
      .text .nil) rfl
  · exact balanced_text haccess

theorem balanced_joined {sep : String} {parts : List Code} (hsep : Bare sep)
    (h : ∀ c ∈ parts, Balanced c) : Balanced (joined sep parts) := by
  apply balanced_code
  induction parts with
  | nil => exact List.forall_mem_nil _
  | cons c parts ih =>
    rw [List.forall_mem_cons] at h
    cases parts with
    | nil => exact List.forall_mem_singleton.2 h.1
    | cons d rest =>
      rw [List.intersperse_cons_cons, List.forall_mem_cons, List.forall_mem_cons]
      exact ⟨h.1, balanced_text hsep, ih h.2⟩

/-- A parameter has no brackets in its name, and its type leaves the brackets as they are. -/
def BareParameter (p : String × Code) : Prop := Bare p.1 ∧ Balanced p.2

theorem bareParameter {name : String} {type : Code} (hname : Bare name) (htype : Balanced type) :
    BareParameter (name, type) :=
  ⟨hname, htype⟩

theorem balanced_parameter {language : Language} {p : String × Code} (h : BareParameter p) :
    Balanced (parameter language p) := by
  rw [parameter]
  split
  · exact Fits.turns (.name h.1 <| .text <| .code h.2 .nil) rfl
  · exact balanced_text (all_withoutQuestionMarks h.1)

/-- The head of a function opens a brace. -/
theorem turns_signature {language : Language} {head result : Code}
    {parameters : List (String × Code)} (hhead : Balanced head)
    (hparameters : ∀ p ∈ parameters, BareParameter p) (hresult : Balanced result) :
    Turns [] (code (signature language head parameters result)) [.curly] := by
  have hlist : Balanced (joined ", " (parameters.map (parameter language))) := by
    refine balanced_joined (bare_text rfl) fun c hc => ?_
    obtain ⟨p, hp, rfl⟩ := List.mem_map.1 hc
    exact balanced_parameter (hparameters p hp)
  rw [signature]
  split
  · exact Fits.turns (.code hhead <| .text <| .code hlist <| .text <| .code hresult <| .text .nil)
      rfl
  · exact Fits.turns (.code hhead <| .text <| .code hlist <| .text .nil) rfl

theorem balanced_cast {language : Language} {expression type : Code}
    (hexpression : Balanced expression) (htype : Balanced type) : Balanced (cast language expression type) := by
  rw [cast]
  split
  · exact Fits.turns (.code hexpression <| .text <| .code htype .nil) rfl
  · exact hexpression

theorem balanced_mapped {language : Language} {array : String} {element : Code}
    (harray : Bare array) (helement : Balanced element) : Balanced (mapped language array element) := by
  have hparameter : Balanced (anyParameter language "x") := by
    cases language <;> exact Fits.turns (.text <| .text <| .text .nil) rfl
  exact Fits.turns
    (.name harray <| .text <| .code hparameter <| .text <| .code helement <| .text .nil)
    rfl

theorem balanced_mappedEntries {object : String} {value : Code} (hobject : Bare object)
    (hvalue : Balanced value) : Balanced (mappedEntries object value) :=
  Fits.turns (.text <| .name hobject <| .text <| .code hvalue <| .text .nil) rfl

/-! ## Types of messages and enums -/

theorem bare_unionType {e : EnumDecl} (h : AllBare (enumTexts e)) : Bare (unionType e) := by
  rw [unionType]
  split
  · exact bare_text rfl
  · refine Text.all_intercalate (bare_text rfl) fun s hs => ?_
    obtain ⟨v, hv, rfl⟩ := List.mem_map.1 hs
    exact bare_inQuotes (h.values hv).1

theorem neat_enumType {e : EnumDecl} (h : AllBare (enumTexts e)) : Neat (enumType e) := by
  have hname : Bare e.name := h _ (by simp [enumTexts])
  refine (neat_comment h.enumComment).append (.cons ?_ neat_blank)
  exact neat_parts (.text <| .name hname <| .text <| .name (bare_unionType h) <| .text .nil)
    rfl

theorem neat_interfaceMember {field : Field} (h : AllBare (fieldTexts field)) :
    Neat (interfaceMember field) := by
  have hinfo := allBare_info h
  have htype := balanced_fieldType h
  refine (neat_comment hinfo.comment).append ?_
  split
  · exact neat_parts (.name hinfo.name <| .text <| .code htype <| .text .nil) rfl
  · exact neat_parts (.name hinfo.name <| .text <| .code htype <| .text .nil) rfl

theorem neat_interface {m : MessageDecl} (h : AllBare (messageTexts m)) : Neat (interface m) := by
  have hname : Bare m.name := h _ (by simp [messageTexts])
  refine ((neat_comment h.messageComment).append ?_).append neat_blank
  split
  · exact neat_parts (.text <| .name hname <| .text .nil) rfl
  · refine neat_block [.curly] ?_ (neat_flatMap fun field hfield => ?_) (turns_text rfl)
    · exact Fits.turns (.text <| .name hname <| .text .nil) rfl
    · exact neat_interfaceMember (h.fields hfield)

theorem neat_namespace {name : String} {body : List Line} (hname : Bare name) (outermost : Bool)
    (hbody : Neat body) : Neat (block (namespaceHead name outermost) body "\x7d") := by
  refine neat_block [.curly] ?_ hbody (turns_text rfl)
  cases outermost <;> exact Fits.turns (.text <| .name hname <| .text .nil) rfl

mutual

theorem neat_declarationTypes (outermost : Bool) :
    ∀ d : Decl, (∀ d' ∈ d.walk, AllBare (declTexts d')) → Neat (declarationTypes outermost d)
  | .enum e, h => neat_enumType (h (.enum e) (by simp [Decl.walk]))
  | .message m children, h => by
    have hm : AllBare (messageTexts m) := h (.message m children) (by simp [Decl.walk])
    have hnested := neat_nestedTypes false children fun d hd => h d (by simp [Decl.walk, hd])
    rw [declarationTypes]
    split
    · exact neat_nil
    refine (neat_interface hm).append ?_
    split
    · exact neat_nil
    · exact (neat_namespace (hm _ (by simp [messageTexts])) outermost hnested).append neat_blank

theorem neat_nestedTypes (outermost : Bool) :
    ∀ ds : List Decl, (∀ d ∈ Decl.walkAll ds, AllBare (declTexts d)) →
      Neat (nestedTypes outermost ds)
  | [], _ => neat_nil
  | d :: rest, h => by
    have hfirst := neat_declarationTypes outermost d fun d' hd => h d' (by simp [Decl.walkAll, hd])
    have hrest := neat_nestedTypes outermost rest fun d' hd => h d' (by simp [Decl.walkAll, hd])
    exact hfirst.append hrest

end

/-! ## JSON -/

theorem balanced_jsonForm? {field : Field} {expression : String} {c : Code}
    (h : AllBare (fieldTexts field)) (hexpression : Bare expression)
    (hc : jsonForm? field expression = some c) : Balanced c := by
  rw [jsonForm?] at hc
  split at hc
  · split at hc
    · cases hc
      exact Fits.turns (.text <| .name hexpression <| .text <| .name hexpression <| .text <|
        .name hexpression <| .text .nil) rfl
    · cases hc
  · cases hc
    exact Fits.turns (.name hexpression <| .text .nil) rfl
  · cases hc
    exact Fits.turns (.runtime <| .text <| .name hexpression <| .text .nil) rfl
  next target htype =>
    cases hc
    have htarget : Bare target.localName := h.valueType _ htype
    exact Fits.turns (.ref htarget <| .text <| .name hexpression <| .text .nil) rfl
  · cases hc

theorem balanced_ofJsonForm? {field : Field} {expression : String} {c : Code}
    (h : AllBare (fieldTexts field)) (hexpression : Bare expression)
    (hc : ofJsonForm? field expression = some c) : Balanced c := by
  have hcall : ∀ {cs ds : List Char}, scan [] (cs ++ (ds ++ [])) = some [] →
      Balanced (code [String.ofList cs, expression, String.ofList ds]) :=
    fun hcs => Fits.turns (.text <| .name hexpression <| .text .nil) hcs
  rw [ofJsonForm?] at hc
  split at hc
  · cases hc
    exact hcall rfl
  · cases hc
    exact hcall rfl
  · cases hc
    exact Fits.turns (.runtime <| .text <| .name hexpression <| .text .nil) rfl
  next target htype =>
    cases hc
    have htarget : Bare target.localName := h.valueType _ htype
    have hnumber : Bare (inQuotes "number") := bare_inQuotes (bare_text rfl)
    exact Fits.turns (.text <| .name hexpression <| .text <| .name hnumber <| .text <|
      .ref htarget <| .text <| .name hexpression <| .text <| .name hexpression <| .text .nil)
      rfl
  next target htype =>
    cases hc
    have htarget : Bare target.localName := h.valueType _ htype
    exact Fits.turns (.ref htarget <| .text <| .ref htarget <| .text <| .name hexpression <|
      .text .nil) rfl
  · cases hc

theorem balanced_fieldToJson {field : Field} {access : String} (language : Language)
    (h : AllBare (fieldTexts field)) (haccess : Bare access) :
    Balanced (fieldToJson language field access) := by
  cases field with
  | map info key value =>
    rw [fieldToJson]
    split
    next => exact Fits.turns (.text <| .name haccess <| .text .nil) rfl
    next form hform =>
      exact balanced_mappedEntries haccess
        (balanced_jsonForm? (allBare_value h) (bare_text rfl) hform)
  | plain info =>
    rw [fieldToJson]
    split
    · split
      next => exact balanced_text haccess
      next form hform =>
        exact balanced_mapped haccess (balanced_jsonForm? h (bare_text rfl) hform)
    · cases hform : jsonForm? (.plain info) access with
      | none => exact balanced_text haccess
      | some form => exact balanced_jsonForm? h haccess hform

theorem balanced_fieldOfJson {field : Field} {json : String} (language : Language)
    (h : AllBare (fieldTexts field)) (hjson : Bare json) :
    Balanced (fieldOfJson language field json) := by
  cases field with
  | map info key value =>
    rw [fieldOfJson]
    split
    next => exact Fits.turns (.text <| .name hjson <| .text .nil) rfl
    next form hform =>
      exact balanced_mappedEntries hjson
        (balanced_ofJsonForm? (allBare_value h) (bare_text rfl) hform)
  | plain info =>
    rw [fieldOfJson]
    split
    · split
      next => exact Fits.turns (.text <| .name hjson <| .text .nil) rfl
      next form hform =>
        exact balanced_mapped hjson (balanced_ofJsonForm? h (bare_text rfl) hform)
    · split
      next target htype =>
        have htarget : Bare target.localName := h.valueType _ htype
        exact Fits.turns (.ref htarget <| .text <| .name (bare_property h) <| .text <|
          .ref htarget <| .text <| .name hjson <| .text .nil) rfl
      next =>
        cases hform : ofJsonForm? (.plain info) json with
        | none => exact balanced_text hjson
        | some form => exact balanced_ofJsonForm? h hjson hform

theorem balanced_jsonMember {name : String} (h : Bare name) :
    Balanced [.plain (jsonMember name)] := by
  have hkey := turns_bare (bare_inQuotes h) [.square]
  exact turns_append (turns_append (turns_text rfl) hkey) (turns_text rfl)

theorem balanced_intercalate {sep : String} {texts : List String} (hsep : Bare sep)
    (h : ∀ t ∈ texts, Balanced [.plain t]) : Balanced [.plain (sep.intercalate texts)] := by
  induction texts with
  | nil => exact balanced_text (bare_text rfl)
  | cons t texts ih =>
    rw [List.forall_mem_cons] at h
    by_cases hne : texts = []
    · rw [hne]
      simpa using h.1
    · rw [String.intercalate_cons_of_ne_nil hne]
      exact turns_append (turns_append h.1 (turns_bare hsep [])) (ih h.2)

theorem balanced_jsonLookup {info : FieldInfo} (h : AllBare (infoTexts info)) :
    Balanced [.plain (jsonLookup info)] := by
  refine balanced_intercalate (bare_text rfl) fun t ht => ?_
  obtain ⟨name, hname, rfl⟩ := List.mem_map.1 ht
  exact balanced_jsonMember (h.readNames name hname)

theorem bare_jsonVariable {info : FieldInfo} (h : AllBare (infoTexts info)) :
    Bare (jsonVariable info) :=
  bare_append.2 ⟨bare_append.2 ⟨bare_text rfl, h.name⟩, bare_text rfl⟩

theorem neat_writeFieldJson {field : Field} (options : Options) (h : AllBare (fieldTexts field)) :
    Neat (writeFieldJson options field) := by
  have hproperty := bare_property h
  have hcondition := balanced_writeCondition h hproperty options.emitDefaults
  have hmember := balanced_jsonMember ((allBare_info h).outputName options.protoNames)
  have hvalue := balanced_fieldToJson options.language h hproperty
  refine neat_block [.curly] ?_ ?_ (turns_text rfl)
  · exact Fits.turns (.text <| .code hcondition <| .text .nil) rfl
  · exact neat_parts (.code hmember <| .text <| .code hvalue <| .text .nil) rfl

theorem neat_writeJsonMethod {m : MessageDecl} (options : Options) (h : AllBare (messageTexts m)) :
    Neat (writeJsonMethod options m) := by
  have hparameter : BareParameter ("msg", partialType m.shortName) :=
    bareParameter (bare_text rfl) (balanced_partialType h.shortName)
  refine neat_privateMark.append
    (neat_block [.curly] ?_ (.cons ?_ (.append ?_ ?_)) (turns_text rfl))
  · exact turns_signature (balanced_text (bare_text rfl)) (List.forall_mem_singleton.2 hparameter)
      (balanced_text (bare_text rfl))
  · split
    · exact neat_parts (.text .nil) rfl
    · exact neat_parts (.text .nil) rfl
  · exact neat_flatMap fun field hfield => neat_writeFieldJson options (h.fields hfield)
  · exact neat_text (bare_text rfl)

theorem neat_readFieldJson {field : Field} (language : Language) (h : AllBare (fieldTexts field)) :
    Neat (readFieldJson language field) := by
  have hvariable := bare_jsonVariable (allBare_info h)
  have hlookup := balanced_jsonLookup (allBare_info h)
  have hvalue := balanced_fieldOfJson language h hvariable
  refine .cons ?_ (neat_block [.curly] ?_ ?_ (turns_text rfl))
  · exact neat_parts (.text <| .name hvariable <| .text <| .code hlookup <| .text .nil) rfl
  · exact Fits.turns (.text <| .name hvariable <| .text .nil) rfl
  · exact neat_parts (.name (bare_property h) <| .text <| .code hvalue <| .text .nil) rfl

theorem neat_readJsonMethod {m : MessageDecl} (language : Language) (h : AllBare (messageTexts m)) :
    Neat (readJsonMethod language m) := by
  have hname := balanced_text h.shortName
  refine neat_privateMark.append (neat_block [.curly] ?_ (.append ?_ ?_) (turns_text rfl))
  · refine turns_signature (balanced_text (bare_text rfl)) ?_ hname
    rw [List.forall_mem_cons, List.forall_mem_singleton]
    exact ⟨bareParameter (bare_text rfl) hname,
      bareParameter (bare_text rfl) (balanced_text (bare_text rfl))⟩
  · exact neat_flatMap fun field hfield => neat_readFieldJson language (h.fields hfield)
  · exact neat_text (bare_text rfl)

/-! ## The wire format -/

section Wire

variable {type : Option ScriptType} (htype : ∀ t ∈ type, BareType t)
include htype

theorem balanced_wireOperand {expression : String} (hexpression : Bare expression) :
    Balanced (wireOperand type expression) := by
  unfold wireOperand
  split
  · exact Fits.turns (.name hexpression <| .text .nil) rfl
  next target =>
    have htarget : Bare target.localName := htype _ rfl
    exact Fits.turns (.ref htarget <| .text <| .name hexpression <| .text .nil) rfl
  · exact balanced_text hexpression

theorem balanced_wireValue {operation : String} (hoperation : Bare operation) :
    Balanced (wireValue type operation) := by
  unfold wireValue
  split
  · exact Fits.turns (.text <| .name hoperation <| .text .nil) rfl
  next target =>
    have htarget : Bare target.localName := htype _ rfl
    exact Fits.turns (.ref htarget <| .text <| .name hoperation <| .text .nil) rfl
  · exact Fits.turns (.text <| .name hoperation <| .text .nil) rfl

theorem balanced_packedValue {operation : String} (hoperation : Bare operation) :
    Balanced (packedValue type operation) := by
  unfold packedValue
  split
  · exact Fits.turns (.text <| .name hoperation <| .text .nil) rfl
  next target =>
    have htarget : Bare target.localName := htype _ rfl
    exact Fits.turns (.text <| .name hoperation <| .text <| .ref htarget <| .text .nil) rfl
  · exact Fits.turns (.text <| .name hoperation <| .text .nil) rfl

end Wire

theorem balanced_keyOperand (type : Option ScriptType) : Balanced [.plain (keyOperand type)] := by
  unfold keyOperand
  split
  · exact turns_text rfl
  · exact balanced_text (bare_append.2 ⟨bare_text rfl, bare_inQuotes (bare_text rfl)⟩)
  · exact turns_text rfl

theorem neat_writeStatement {info : FieldInfo} {access : String} (language : Language)
    (h : AllBare (infoTexts info)) (haccess : Bare access) :
    Neat [writeStatement language info access] := by
  -- The head of the statement opens a call, which is closed at the end of the line.
  have hhead : Turns [] (code ["writer.", info.operations.write, "(", toString info.number.toNat,
      ", "]) [.round] :=
    Fits.turns (.text <| .name h.write <| .text <| .name (bare_toString_nat _) <| .text .nil) rfl
  have htypes := h.type
  unfold writeStatement
  split
  next target htype _ =>
    have htarget : Bare target.localName := htypes _ htype
    have hcast : Balanced (cast language access "any") :=
      balanced_cast (balanced_text haccess) (balanced_text (bare_text rfl))
    refine neat_line (hhead.code_cons ?_)
    exact Fits.turns (.code hcast <| .text <| .ref htarget <| .text .nil) rfl
  next target htype _ =>
    have htarget : Bare target.localName := htypes _ htype
    refine neat_line (hhead.code_cons ?_)
    exact Fits.turns (.name haccess <| .text <| .ref htarget <| .text .nil) rfl
  next =>
    refine neat_line (hhead.code_cons ?_)
    exact Fits.turns (.name haccess <| .text .nil) rfl
  next target htype _ =>
    have htarget : Bare target.localName := htypes _ htype
    refine neat_line (hhead.code_cons ?_)
    exact Fits.turns (.name haccess <| .text <| .ref htarget <| .text .nil) rfl
  next =>
    refine neat_line (hhead.code_cons ?_)
    exact Fits.turns (.code (balanced_wireOperand htypes haccess) <| .text .nil) rfl

theorem neat_writeEntryValue {value : Field} (h : AllBare (fieldTexts value)) :
    Neat [writeEntryValue value] := by
  have hhead : Turns [] (code ["mapWriter.", value.info.operations.write, "(2, "]) [.round] :=
    Fits.turns (.text <| .name (allBare_info h).write <| .text .nil) rfl
  unfold writeEntryValue
  split
  next target htype =>
    have htarget : Bare target.localName := h.valueType _ htype
    refine neat_line (hhead.code_cons ?_)
    exact Fits.turns (.text <| .ref htarget <| .text .nil) rfl
  next =>
    refine neat_line (hhead.code_cons ?_)
    exact Fits.turns (.code (balanced_wireOperand h.valueType (bare_text rfl)) <| .text .nil) rfl

/-- The writer of a map opens a call and a function in one line and closes both in another. -/
theorem neat_writeMap {number : UInt32} {key value : Field} {access : String}
    (hkey : AllBare (fieldTexts key)) (hvalue : AllBare (fieldTexts value))
    (haccess : Bare access) : Neat (writeMap number key value access) := by
  have hwrite := (allBare_info hkey).write
  refine neat_block [.curly] ?_ (neat_block [.curly, .round] ?_ (.cons ?_ ?_) (turns_text rfl))
    (turns_text rfl)
  · exact Fits.turns (.text <| .name haccess <| .text .nil) rfl
  · exact Fits.turns (.text <| .name (bare_toString_nat _) <| .text .nil) rfl
  · exact neat_parts (.text <| .name hwrite <| .text <| .code (balanced_keyOperand _) <| .text .nil)
      rfl
  · exact neat_writeEntryValue hvalue

theorem neat_writeField {field : Field} (language : Language) (h : AllBare (fieldTexts field)) :
    Neat (writeField language field) := by
  have hproperty := bare_property h
  have hcondition := balanced_writeCondition h hproperty false
  refine neat_block [.curly] ?_ ?_ (turns_text rfl)
  · exact Fits.turns (.text <| .code hcondition <| .text .nil) rfl
  · cases field with
    | map info key value => exact neat_writeMap (allBare_key h) (allBare_value h) hproperty
    | plain info => exact neat_writeStatement language h hproperty

theorem neat_writeMethod {m : MessageDecl} (language : Language) (h : AllBare (messageTexts m)) :
    Neat (writeMethod language m) := by
  refine neat_privateMark.append (neat_block [.curly] ?_ (.append ?_ ?_) (turns_text rfl))
  · refine turns_signature (balanced_text (bare_text rfl)) ?_ (balanced_runtime _)
    rw [List.forall_mem_cons, List.forall_mem_singleton]
    exact ⟨bareParameter (bare_text rfl) (balanced_partialType h.shortName),
      bareParameter (bare_text rfl) (balanced_runtime _)⟩
  · exact neat_flatMap fun field hfield => neat_writeField language (h.fields hfield)
  · exact neat_text (bare_text rfl)

theorem neat_caseOf {label : List Code} {body : List Line} (hlabel : Balanced (code label))
    (hbody : Neat body) : Neat (caseOf label body) :=
  neat_block [.curly] (Fits.turns (.code hlabel <| .text .nil) rfl) hbody (turns_text rfl)

theorem neat_break : Neat [line ["break;"]] := neat_text (bare_text rfl)

theorem neat_skipCase : Neat skipCase :=
  neat_caseOf (Fits.turns (.text .nil) rfl) (.cons (neat_parts (.text .nil) rfl) neat_break)

/-- The reader of a field that may be packed closes a block and opens another in one line. -/
theorem neat_readStatements {info : FieldInfo} {access : String} (h : AllBare (infoTexts info))
    (haccess : Bare access) : Neat (readStatements info access) := by
  have htypes := h.type
  have hvalue := balanced_wireValue htypes h.read
  unfold readStatements
  split
  next target htype _ =>
    have htarget : Bare target.localName := htypes _ htype
    refine .cons ?_ (.cons ?_ ?_)
    · exact neat_parts (.text <| .name haccess <| .text <| .ref htarget <| .text .nil) rfl
    · exact neat_parts (.text <| .ref htarget <| .text .nil) rfl
    · exact neat_parts (.name haccess <| .text .nil) rfl
  next target htype _ =>
    have htarget : Bare target.localName := htypes _ htype
    refine .cons ?_ (.cons ?_ ?_)
    · exact neat_parts (.text <| .ref htarget <| .text .nil) rfl
    · exact neat_parts (.text <| .ref htarget <| .text .nil) rfl
    · exact neat_parts (.name haccess <| .text .nil) rfl
  next =>
    have hpush : Neat [line [access, ".push(", wireValue info.kind.scriptType? info.operations.read,
        ");"]] :=
      neat_parts (.name haccess <| .text <| .code hvalue <| .text .nil) rfl
    split
    next operation hoperation =>
      have hpacked := balanced_packedValue htypes (h.packedRead hoperation)
      have hpushAll : Neat [line [access, ".push(...",
          packedValue info.kind.scriptType? operation, ");"]] :=
        neat_parts (.name haccess <| .text <| .code hpacked <| .text .nil) rfl
      have hhead : Turns [] "if (reader.isDelimited()) \x7b" [.curly] := turns_text rfl
      have hmiddle : Turns [.curly] "\x7d else \x7b" [.curly] := turns_text rfl
      have htail : Turns [.curly] "\x7d" [] := turns_text rfl
      exact neat_either hhead hpushAll hmiddle hpush htail
    next => exact hpush
  next => exact neat_parts (.name haccess <| .text <| .code hvalue <| .text .nil) rfl

theorem balanced_entryValueInitial {value : Field} (h : AllBare (fieldTexts value)) :
    Balanced (entryValueInitial value) := by
  unfold entryValueInitial
  split
  next hexpression => exact balanced_initialExpression (allBare_info h) hexpression
  next target _ htype =>
    have htarget : Bare target.localName := h.valueType _ htype
    exact Fits.turns (.ref htarget <| .text .nil) rfl
  next => exact balanced_text (bare_text rfl)

theorem neat_readEntryValue {value : Field} (h : AllBare (fieldTexts value)) :
    Neat [readEntryValue value] := by
  unfold readEntryValue
  split
  next target htype =>
    have htarget : Bare target.localName := h.valueType _ htype
    exact neat_parts (.text <| .ref htarget <| .text .nil) rfl
  next =>
    have hvalue := balanced_wireValue h.valueType (allBare_info h).read
    exact neat_parts (.text <| .code hvalue <| .text .nil) rfl

theorem neat_readEntry {key value : Field} {access : String} (hkey : AllBare (fieldTexts key))
    (hvalue : AllBare (fieldTexts value)) (haccess : Bare access) :
    Neat (readEntry key value access) := by
  have hinitial : Balanced ((initialExpression key.info.initial).getD (inQuotes "")) := by
    cases hexpression : initialExpression key.info.initial with
    | none => exact balanced_text (bare_inQuotes (bare_text rfl))
    | some c => exact balanced_initialExpression (allBare_info hkey) hexpression
  have hread := balanced_wireValue hkey.valueType (allBare_info hkey).read
  have hcases : Neat (caseOf ["case 1"]
        [line ["entry.key = ", wireValue (valueType? key) key.info.operations.read, ";"],
          line ["break;"]] ++
      caseOf ["case 2"] [readEntryValue value, line ["break;"]] ++ skipCase) := by
    refine (neat_caseOf ?_ (.cons ?_ neat_break)).append (neat_caseOf ?_ ?_) |>.append neat_skipCase
    · exact Fits.turns (.text .nil) rfl
    · exact neat_parts (.text <| .code hread <| .text .nil) rfl
    · exact Fits.turns (.text .nil) rfl
    · exact (neat_readEntryValue hvalue).cons neat_break
  refine .append (.append ?_ (neat_block [.curly, .round] ?_ ?_ (turns_text rfl))) ?_
  · exact neat_parts (.text <| .code hinitial <| .text <|
      .code (balanced_entryValueInitial hvalue) <| .text .nil) rfl
  · exact Fits.turns (.text .nil) rfl
  · refine neat_block [.curly] ?_ (neat_block [.curly] ?_ hcases (turns_text rfl)) (turns_text rfl)
    · exact Fits.turns (.text .nil) rfl
    · exact Fits.turns (.text .nil) rfl
  · exact neat_parts (.name haccess <| .text .nil) rfl

theorem neat_readField {field : Field} (h : AllBare (fieldTexts field)) :
    Neat (readField field) := by
  have hproperty := bare_property h
  cases field with
  | map info key value => exact neat_readEntry (allBare_key h) (allBare_value h) hproperty
  | plain info => exact neat_readStatements h hproperty

theorem neat_readCase {m : MessageDecl} {field : Field} (h : AllBare (messageTexts m))
    (hfield : field ∈ m.fields) : Neat (readCase m field) := by
  refine neat_caseOf ?_ (.append (.append (neat_readField (h.fields hfield)) ?_) neat_break)
  · exact Fits.turns (.text <| .name (bare_toString_nat _) .nil) rfl
  · refine neat_of_forall fun l hl => ?_
    obtain ⟨other, hother, rfl⟩ := List.mem_map.1 hl
    have hproperty := bare_property (h.fields (List.mem_of_mem_filter hother))
    exact neat_parts (.name hproperty <| .text .nil) rfl

theorem neat_readMethod {m : MessageDecl} (language : Language) (h : AllBare (messageTexts m)) :
    Neat (readMethod language m) := by
  have hname := balanced_text h.shortName
  refine neat_privateMark.append (neat_block [.curly] ?_
    (.append (neat_block [.curly] ?_ (.cons ?_ (neat_block [.curly] ?_ (.append ?_ neat_skipCase)
      (turns_text rfl))) (turns_text rfl)) (neat_text (bare_text rfl))) (turns_text rfl))
  · refine turns_signature (balanced_text (bare_text rfl)) ?_ hname
    rw [List.forall_mem_cons, List.forall_mem_singleton]
    exact ⟨bareParameter (bare_text rfl) hname, bareParameter (bare_text rfl) (balanced_runtime _)⟩
  · exact Fits.turns (.text .nil) rfl
  · exact neat_parts (.text .nil) rfl
  · exact Fits.turns (.text .nil) rfl
  · exact neat_flatMap fun field hfield => neat_readCase h hfield

end ProtoStub.Script
