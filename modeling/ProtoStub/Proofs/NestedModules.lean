import ProtoStub.Proofs.BuiltFields
import ProtoStub.Proofs.NestedMethods

/-!
# Brackets nest in generated modules

The objects of a module, its services and its header are neat lines, and so is the whole module
(`neat_moduleLines`). So its brackets nest, and a printer never goes back from level 0
(`moduleText_nested`).
-/

namespace ProtoStub.Script

open Brackets

/-! ## Objects -/

theorem neat_object {name mark : String} {body : List Line} (hname : Bare name) (outermost : Bool)
    (hmark : Bare mark) (hbody : Neat body) : Neat (object name outermost mark body) := by
  have htail : ∀ {last : String}, Bare last → Turns [.curly] [.plain ("\x7d" ++ mark ++ last)] [] :=
    fun hlast =>
      turns_append (turns_append (turns_text rfl) (turns_bare hmark [])) (turns_bare hlast [])
  cases outermost with
  | true =>
    refine (neat_block [.curly] ?_ hbody (htail (bare_text rfl))).append neat_blank
    exact Fits.turns (.text <| .name hname <| .text .nil) rfl
  | false =>
    refine neat_block [.curly] ?_ hbody (htail (bare_text rfl))
    exact Fits.turns (.name hname <| .text .nil) rfl

theorem neat_shortMethod {doc : String} {head statement : List Code} (hdoc : Bare doc)
    (hhead : Turns [] (code head) [.curly]) (hstatement : Balanced (code statement)) :
    Neat (shortMethod doc head statement) := by
  have hdocumentation := neat_documentation (List.forall_mem_singleton.2 hdoc)
  have hmethod : Neat (block head [line statement] "\x7d,") :=
    neat_block [.curly] hhead (neat_line hstatement) (turns_text rfl)
  exact (hdocumentation.append hmethod).append neat_blank

theorem neat_conversionMethods {name : String} (language : Language) (h : Bare name) :
    Neat (conversionMethods language name) := by
  have hdoc : ∀ {start finish : String}, Bare start → Bare finish →
      Bare (start ++ name ++ finish) :=
    fun hstart hfinish => bare_append.2 ⟨bare_append.2 ⟨hstart, h⟩, hfinish⟩
  -- Each method has one parameter.
  have hhead : ∀ {head parameter : String} {type result : Code}, Bare head → Bare parameter →
      Balanced type → Balanced result →
      Turns [] (code (signature language head [(parameter, type)] result)) [.curly] :=
    fun hhead hparameter htype hresult => turns_signature (balanced_text hhead)
      (List.forall_mem_singleton.2 (bareParameter hparameter htype)) hresult
  have hpartial := balanced_partialType h
  have hname := balanced_text h
  refine .append (.append (.append (neat_shortMethod ?_ ?_ ?_) (neat_shortMethod ?_ ?_ ?_))
    (neat_shortMethod ?_ ?_ ?_)) (neat_shortMethod ?_ ?_ ?_)
  · exact hdoc (bare_text rfl) (bare_text rfl)
  · exact hhead (bare_text rfl) (bare_text rfl) hpartial (balanced_text (bare_text rfl))
  · exact Fits.turns (.text <| .name h <| .text <| .runtime <| .text .nil) rfl
  · exact hdoc (bare_text rfl) (bare_text rfl)
  · exact hhead (bare_text rfl) (bare_text rfl) (balanced_runtime _) hname
  · exact Fits.turns (.text <| .name h <| .text <| .name h <| .text <| .runtime <| .text .nil) rfl
  · exact hdoc (bare_text rfl) (bare_text rfl)
  · exact hhead (bare_text rfl) (bare_text rfl) hpartial (balanced_text (bare_text rfl))
  · exact Fits.turns (.text <| .name h <| .text .nil) rfl
  · exact hdoc (bare_text rfl) (bare_text rfl)
  · exact hhead (bare_text rfl) (bare_text rfl) (balanced_text (bare_text rfl)) hname
  · exact Fits.turns (.text <| .name h <| .text <| .name h <| .text .nil) rfl

theorem neat_initialMembers {m : MessageDecl} (h : AllBare (messageTexts m)) :
    Neat (initialMembers m) := by
  refine neat_of_forall fun l hl => ?_
  obtain ⟨field, hfield, hl⟩ := List.mem_filterMap.1 hl
  obtain ⟨expression, hexpression, rfl⟩ := Option.map_eq_some_iff.1 hl
  have hinfo := allBare_info (h.fields hfield)
  have hbalanced := balanced_initialExpression hinfo hexpression
  exact neat_parts (.name hinfo.name <| .text <| .code hbalanced <| .text .nil) rfl

theorem neat_initializeMethod {m : MessageDecl} (language : Language)
    (h : AllBare (messageTexts m)) : Neat (initializeMethod language m) := by
  have hdoc :
      Bare ("Initializes " ++ m.shortName ++ " with all fields set to their default value.") :=
    bare_append.2 ⟨bare_append.2 ⟨bare_text rfl, h.shortName⟩, bare_text rfl⟩
  refine ((neat_documentation (List.forall_mem_singleton.2 hdoc)).append
    (neat_block [.curly] ?_ ?_ (turns_text rfl))).append neat_blank
  · exact turns_signature (balanced_text (bare_text rfl)) (List.forall_mem_nil _)
      (balanced_text h.shortName)
  · split
    · exact neat_parts (.text .nil) rfl
    · refine neat_block [.curly] ?_ (neat_initialMembers h) (turns_text rfl)
      exact Fits.turns (.text .nil) rfl

theorem neat_messageMethods {m : MessageDecl} (options : Options) (h : AllBare (messageTexts m)) :
    Neat (messageMethods options m) := by
  have hconversion := neat_conversionMethods options.language h.shortName
  have hinitialize := neat_initializeMethod options.language h
  have hwrite := (neat_writeMethod options.language h).append neat_blank
  have hwriteJson := (neat_writeJsonMethod options h).append neat_blank
  have hread := (neat_readMethod options.language h).append neat_blank
  have hreadJson := neat_readJsonMethod options.language h
  have hall := (hconversion.append hinitialize).append
    (hwrite.append (hwriteJson.append (hread.append hreadJson)))
  simpa only [messageMethods, List.append_assoc] using hall

theorem neat_enumMethod {head : List Code} {cases : List Line} {otherwise : Code}
    (hhead : Turns [] (code head) [.curly]) (hcases : Neat cases)
    (hotherwise : Balanced otherwise) : Neat (enumMethod head cases otherwise) := by
  have hdefault : Neat (caseOf ["default"] [line ["return ", otherwise, ";"]]) :=
    neat_caseOf (Fits.turns (.text .nil) rfl)
      (neat_parts (.text <| .code hotherwise <| .text .nil) rfl)
  have hnote : Neat [line [unknownNote]] := neat_text (bare_append.2 ⟨bare_text rfl, bare_text rfl⟩)
  refine neat_privateMark.append (neat_block [.curly] hhead (neat_block [.curly] ?_
    (hcases.append (hnote.cons hdefault)) (turns_text rfl)) (turns_text rfl))
  exact Fits.turns (.text .nil) rfl

theorem mem_of_mem_firstOfNumbers {v : EnumValueDecl} {values : List EnumValueDecl}
    (h : v ∈ firstOfNumbers values) : v ∈ values := by
  induction values with
  | nil => exact h
  | cons v' rest ih =>
    rcases List.mem_cons.1 h with rfl | h
    · exact List.mem_cons_self
    · exact List.mem_cons_of_mem _ (ih (List.mem_of_mem_filter h))

theorem neat_enumObject {e : EnumDecl} (language : Language) (outermost : Bool)
    (h : AllBare (enumTexts e)) : Neat (enumObject language outermost e) := by
  have hname : Bare e.name := h _ (by simp [enumTexts])
  have hshort : Bare e.shortName := h _ (by simp [enumTexts])
  have hmark : Bare (if language.isTyped then " as const" else "") := by
    cases language <;> exact bare_text rfl
  have hmembers : Neat (e.values.flatMap enumMember) := by
    refine neat_flatMap fun v hv => ?_
    obtain ⟨hvalue, hcomment⟩ := h.values hv
    refine (neat_comment hcomment).append ?_
    exact neat_parts (.name hvalue <| .text <| .name (bare_inQuotes hvalue) <| .text .nil) rfl
  have hfromInt : Neat ((firstOfNumbers e.values).flatMap fun v =>
      caseOf ["case ", toString v.number.toInt] [line ["return ", inQuotes v.name, ";"]]) := by
    refine neat_flatMap fun v hv => neat_caseOf ?_ ?_
    · exact Fits.turns (.text <| .name (bare_toString_int _) .nil) rfl
    · have hvalue := bare_inQuotes (h.values (mem_of_mem_firstOfNumbers hv)).1
      exact neat_parts (.text <| .name hvalue <| .text .nil) rfl
  have htoInt : Neat (e.values.flatMap fun v =>
      caseOf ["case ", inQuotes v.name] [line ["return ", toString v.number.toInt, ";"]]) := by
    refine neat_flatMap fun v hv => neat_caseOf ?_ ?_
    · exact Fits.turns (.text <| .name (bare_inQuotes (h.values hv).1) .nil) rfl
    · exact neat_parts (.text <| .name (bare_toString_int _) <| .text .nil) rfl
  refine (neat_comment h.enumComment).append (neat_object hname outermost hmark
    ((hmembers.append (neat_enumMethod ?_ hfromInt ?_)).append (neat_enumMethod ?_ htoInt ?_)))
  · exact turns_signature (balanced_text (bare_text rfl))
      (List.forall_mem_singleton.2 (bareParameter (bare_text rfl) (balanced_text (bare_text rfl))))
      (balanced_text hshort)
  · exact balanced_cast (balanced_text (bare_text rfl))
      (Fits.turns (.text <| .name hshort .nil) rfl)
  · exact turns_signature (balanced_text (bare_text rfl))
      (List.forall_mem_singleton.2 (bareParameter (bare_text rfl) (balanced_text hshort)))
      (balanced_text (bare_text rfl))
  · exact balanced_cast (balanced_text (bare_text rfl)) (balanced_text (bare_text rfl))

mutual

theorem neat_declarationObject (options : Options) (outermost : Bool) :
    ∀ d : Decl, (∀ d' ∈ d.walk, AllBare (declTexts d')) →
      Neat (declarationObject options outermost d)
  | .enum e, h => neat_enumObject options.language outermost (h (.enum e) (by simp [Decl.walk]))
  | .message m children, h => by
    have hm : AllBare (messageTexts m) := h (.message m children) (by simp [Decl.walk])
    have hnested := neat_nestedObjects options children fun d hd => h d (by simp [Decl.walk, hd])
    rw [declarationObject]
    split
    · exact neat_nil
    · refine (neat_comment hm.messageComment).append ?_
      exact neat_object (hm _ (by simp [messageTexts])) outermost (bare_text rfl)
        ((neat_messageMethods options hm).append hnested)

theorem neat_nestedObjects (options : Options) :
    ∀ ds : List Decl, (∀ d ∈ Decl.walkAll ds, AllBare (declTexts d)) →
      Neat (nestedObjects options ds)
  | [], _ => neat_nil
  | d :: rest, h => by
    have hfirst := neat_declarationObject options false d
      fun d' hd => h d' (by simp [Decl.walkAll, hd])
    have hrest := neat_nestedObjects options rest fun d' hd => h d' (by simp [Decl.walkAll, hd])
    rw [nestedObjects]
    refine .append ?_ hrest
    split
    · exact neat_blank.cons hfirst
    · exact neat_nil

end

/-! ## Services -/

section Services

variable {method : MethodDecl} {service : ServiceDecl} {tree : FileTree}

theorem neat_client (language : Language) {protocol : Protocol} (hencode : Bare protocol.encode)
    (hdecode : Bare protocol.decode) (hsuffix : Bare protocol.suffix)
    (hpath : Bare (tree.servicePath service)) (h : AllBare (methodTexts method)) :
    Neat (client language tree service protocol method) := by
  have hslash : Bare "/" := bare_text rfl
  have hroute : Bare (tree.methodPath service method) :=
    bare_append.2 ⟨bare_append.2 ⟨bare_append.2 ⟨hslash, hpath⟩, hslash⟩, h.methodName⟩
  refine ((neat_comment h.methodComment).append (neat_block [.curly] ?_ (.append
    (neat_block [.round] ?_ (.cons ?_ (.cons ?_ ?_)) (turns_text rfl)) ?_) (turns_text rfl))).append
    neat_blank
  · refine turns_signature ?_ ?_ ?_
    · exact Fits.turns (.text <| .name h.methodName <| .name hsuffix .nil) rfl
    · rw [List.forall_mem_cons, List.forall_mem_singleton]
      exact ⟨bareParameter h.parameter (balanced_ref h.input),
        bareParameter (bare_text rfl) (balanced_runtime _)⟩
    · exact Fits.turns (.text <| .ref h.output <| .text .nil) rfl
  · exact Fits.turns (.text <| .runtime <| .text .nil) rfl
  · exact neat_parts (.name (bare_inQuotes hroute) <| .text .nil) rfl
  · exact neat_parts (.ref h.input <| .text <| .name hencode <| .text <| .name h.parameter <|
      .text .nil) rfl
  · exact neat_text (bare_text rfl)
  · exact neat_parts (.text <| .ref h.output <| .text <| .name hdecode <| .text .nil) rfl

theorem neat_serviceInterface (h : AllBare (serviceTexts service)) :
    Neat (serviceInterface service) := by
  have hcomment : ∀ s ∈ service.comment, Bare s :=
    fun s hs => h _ (by simp [serviceTexts, Option.mem_def.1 hs])
  refine ((neat_comment hcomment).append (neat_block [.curly] ?_
    (neat_flatMap fun method hmethod => ?_) (turns_text rfl))).append neat_blank
  · exact Fits.turns (.text <| .name h.serviceName <| .text .nil) rfl
  · have hm := h.methods hmethod
    refine (neat_comment hm.methodComment).append ?_
    exact neat_parts (.name hm.methodName <| .text <| .name hm.parameter <| .text <|
      .ref hm.input <| .text <| .ref hm.output <| .text <| .ref hm.output <| .text .nil) rfl

theorem balanced_conversions {target : TypeRef} (h : Bare target.localName) :
    Balanced (conversions target) :=
  Fits.turns (.text <| .ref h <| .text <| .ref h <| .text <| .ref h <| .text <| .ref h <|
    .text .nil) rfl

theorem neat_methodEntry (h : AllBare (methodTexts method)) : Neat (methodEntry method) := by
  refine neat_block [.curly] ?_ (.cons ?_ (.cons ?_ (.cons ?_ ?_))) (turns_text rfl)
  · exact Fits.turns (.name h.methodName <| .text .nil) rfl
  · exact neat_parts (.text <| .name (bare_inQuotes h.methodName) <| .text .nil) rfl
  · exact neat_parts (.text <| .name h.methodName <| .text .nil) rfl
  · exact neat_parts (.text <| .code (balanced_conversions h.input) <| .text .nil) rfl
  · exact neat_parts (.text <| .code (balanced_conversions h.output) <| .text .nil) rfl

theorem neat_registration (language : Language) (hpath : Bare (tree.servicePath service))
    (h : AllBare (serviceTexts service)) : Neat (registration language tree service) := by
  have hhead : Bare ("export function create" ++ service.name) :=
    bare_append.2 ⟨bare_text rfl, h.serviceName⟩
  refine (neat_block [.curly] ?_ (neat_block [.curly] ?_ (.cons ?_ (neat_block [.curly] ?_ ?_
    (turns_text rfl))) ?_) (turns_text rfl)).append neat_blank
  · refine turns_signature ?_ (List.forall_mem_singleton.2 (bareParameter (bare_text rfl) ?_)) ⟨rfl⟩
    · split
      · exact (balanced_text hhead).append (balanced_text (bare_text rfl))
      · exact balanced_text hhead
    · exact (balanced_text h.serviceName).append (balanced_text (bare_text rfl))
  · exact Fits.turns (.text .nil) rfl
  · exact neat_parts (.text <| .name (bare_inQuotes hpath) <| .text .nil) rfl
  · exact Fits.turns (.text .nil) rfl
  · exact neat_flatMap fun method hmethod => neat_methodEntry (h.methods hmethod)
  · split
    · exact turns_text rfl
    · exact turns_text rfl

theorem neat_serviceLines (language : Language) (hpackage : Bare tree.package)
    (h : AllBare (serviceTexts service)) : Neat (serviceLines language tree service) := by
  have hpath := bare_servicePath hpackage h.serviceName
  have hclients : ∀ (title : String) (protocol : Protocol), Bare title →
      Bare protocol.encode → Bare protocol.decode → Bare protocol.suffix →
      Neat (banner (service.name ++ title) ++
        service.methods.flatMap (client language tree service protocol)) := by
    intro title protocol htitle hencode hdecode hsuffix
    refine (neat_banner (bare_append.2 ⟨h.serviceName, htitle⟩)).append ?_
    refine neat_flatMap fun method hmethod => ?_
    exact neat_client language hencode hdecode hsuffix hpath (h.methods hmethod)
  have hbinary := hclients " Protobuf Client" .binary (bare_text rfl) (bare_text rfl) (bare_text rfl)
    (bare_text rfl)
  have hjson := hclients " JSON Client" .json (bare_text rfl) (bare_text rfl) (bare_text rfl)
    (bare_text rfl)
  have hinterface : Neat (if language.isTyped then serviceInterface service else []) := by
    split
    · exact neat_serviceInterface h
    · exact neat_nil
  have hserver := (neat_banner h.serviceName).append
    (hinterface.append (neat_registration language hpath h))
  have hall := hbinary.append (hjson.append hserver)
  simpa only [serviceLines, List.append_assoc] using hall

end Services

/-! ## Modules -/

theorem neat_importLine {keyword path : String} {names : List Code} (hkeyword : Bare keyword)
    (hnames : ∀ c ∈ names, Balanced c) (hpath : Bare path) :
    Neat (importLine keyword names path) := by
  rw [importLine]
  split
  · exact neat_nil
  · exact neat_parts (.name hkeyword <| .text <| .code (balanced_joined (bare_text rfl) hnames) <|
      .text <| .name (bare_inQuotes hpath) <| .text .nil) rfl

theorem neat_imports {tree : FileTree} (language : Language)
    (h : AllBare (importTexts tree.imports)) : Neat (imports language tree) := by
  have hruntime : ∀ (keyword : String) (names : List RuntimeName), Bare keyword →
      Neat (importLine keyword (names.map runtime) runtimeModule) := by
    intro keyword names hkeyword
    refine neat_importLine hkeyword (fun c hc => ?_) (bare_text rfl)
    obtain ⟨name, -, rfl⟩ := List.mem_map.1 hc
    exact balanced_runtime name
  refine .append (.append ?_ (hruntime _ _ (bare_text rfl))) (neat_of_forall fun l hl => ?_)
  · split
    · exact hruntime _ _ (bare_text rfl)
    · exact neat_nil
  · obtain ⟨entry, hentry, rfl⟩ := List.mem_map.1 hl
    obtain ⟨p, hp, rfl⟩ := List.mem_map.1 hentry
    have hmem : ∀ s ∈ p.1 :: p.2.flatMap (fun q => [q.1, q.2]), Bare s :=
      fun s hs => h s (List.mem_flatMap.2 ⟨p, hp, hs⟩)
    rw [List.forall_mem_cons] at hmem
    have hnames : Bare (", ".intercalate (p.2.map fun q => ImportTable.clause q.1 q.2)) := by
      refine Text.all_intercalate (bare_text rfl) fun s hs => ?_
      obtain ⟨q, hq, rfl⟩ := List.mem_map.1 hs
      have hidentifier : Bare q.1 := hmem.2 _ (List.mem_flatMap.2 ⟨q, hq, by simp⟩)
      have hlocal : Bare q.2 := hmem.2 _ (List.mem_flatMap.2 ⟨q, hq, by simp⟩)
      rw [ImportTable.clause]
      split
      · exact hidentifier
      · exact bare_append.2 ⟨bare_append.2 ⟨hidentifier, bare_text rfl⟩, hlocal⟩
    exact neat_parts (.text <| .name hnames <| .text <| .name (bare_inQuotes hmem.1) <|
      .text .nil) rfl

theorem neat_header {tree : FileTree} (language : Language) (hname : Bare tree.name)
    (h : AllBare (importTexts tree.imports)) : Neat (header language tree) := by
  refine .append (.cons ?_ (.cons ?_ (.cons ?_ neat_blank))) ?_
  · exact neat_text (bare_text rfl)
  · exact neat_parts (.text <| .name hname .nil) rfl
  · exact neat_text (bare_text rfl)
  · split
    · exact neat_nil
    · exact (neat_imports language h).append neat_blank

theorem neat_typeSection {tree : FileTree} (language : Language)
    (h : ∀ d ∈ tree.walk, AllBare (declTexts d)) : Neat (typeSection language tree) := by
  rw [typeSection]
  split
  · exact (neat_banner (bare_text rfl)).append (neat_nestedTypes true tree.types h)
  · exact neat_nil

theorem neat_codecSection {tree : FileTree} (options : Options)
    (h : ∀ d ∈ tree.walk, AllBare (declTexts d)) : Neat (codecSection options tree) := by
  rw [codecSection]
  split
  · exact neat_nil
  · refine (neat_banner (bare_text rfl)).append (neat_flatMap fun d hd => ?_)
    refine neat_declarationObject options true d fun d' hd' => h d' ?_
    exact Decl.mem_walkAll.2 ⟨d, hd, hd'⟩

theorem neat_moduleLines (options : Options) {tree : FileTree} (h : AllBare (shownTexts tree)) :
    Neat (moduleLines options tree) := by
  have hname : Bare tree.name := h _ (by simp [shownTexts])
  have hpackage : Bare tree.package := h _ (by simp [shownTexts])
  have hdecls : ∀ d ∈ tree.walk, AllBare (declTexts d) := by
    intro d hd s hs
    have hmem : s ∈ tree.walk.flatMap declTexts := List.mem_flatMap.2 ⟨d, hd, hs⟩
    exact h s (by simp [shownTexts, hmem])
  have hservices : ∀ service ∈ tree.services, AllBare (serviceTexts service) := by
    intro service hservice s hs
    have hmem : s ∈ tree.services.flatMap serviceTexts := List.mem_flatMap.2 ⟨service, hservice, hs⟩
    exact h s (by simp [shownTexts, hmem])
  have himports : AllBare (importTexts tree.imports) :=
    h.mono fun s hs => List.mem_append_right _ hs
  refine (neat_header options.language hname himports).append (.append (.append ?_ ?_) ?_)
  · exact neat_typeSection options.language hdecls
  · exact neat_flatMap fun service hservice =>
      neat_serviceLines options.language hpackage (hservices service hservice)
  · exact neat_codecSection options hdecls

/-- If no name, comment or path that a module shows and no level of indentation has a bracket, then
the brackets of the module nest, no start of it closes more brackets of a kind than it opens, it
closes as many as it opens, and a printer that refuses to go back from level 0 prints it and is at
level 0 at the end. -/
theorem moduleText_nested (options : Options) (tree : FileTree)
    (hbare : ∀ s ∈ options.indent :: shownTexts tree, Bare s) :
    Nested (moduleText options tree).toList ∧
      (∀ b : Kind,
        (∀ start, start <+: (moduleText options tree).toList →
          start.count b.closing ≤ start.count b.opening) ∧
        (moduleText options tree).toList.count b.opening =
          (moduleText options tree).toList.count b.closing) ∧
      Printer.printAll? options.indent {} (moduleLines options tree) =
        some ⟨moduleText options tree, 0⟩ := by
  rw [List.forall_mem_cons] at hbare
  have hstart : Printer.At {} ⟨[], 0⟩ := ⟨rfl, rfl⟩
  obtain ⟨p, hprint, hend⟩ := neat_moduleLines options hbare.2 ⟨[], 0⟩ _ hbare.1 {} hstart
  have htext : p.text = moduleText options tree := by
    rw [text_of_printAll? hprint, String.empty_append]
    rfl
  have hscan : scan [] (moduleText options tree).toList = some [] := htext ▸ hend.pending
  refine ⟨nested_of_scan hscan, fun b => ⟨?_, count_opening_eq hscan b⟩, ?_⟩
  · exact fun start hprefix => count_closing_le hscan hprefix b
  · have hlevel : p.level = 0 := hend.level
    rw [hprint, ← htext, ← hlevel]

/-- A field of a shed. -/
def shedField (name : String) (number : UInt32) (kind : FieldKind) (repeated : Bool) : FieldInfo :=
  { name, number, repeated, optional := false, oneof := none, kind
    initial := kind.initial repeated false, operations := kind.operations repeated
    protoName := name, jsonName := name, customJsonName := none, comment := none }

/-- Sheds, as a module refers to them. -/
def shedRef : TypeRef := ⟨"Shed", "shed.proto", "", "Shed", .message, "Shed"⟩

/-- A file with a list, a map, a nested enum and a service. -/
def shed : FileTree :=
  { name := "shed.proto", package := "", dialect := .proto3
    types := [
      .message
        { name := "Shed", fqName := "Shed", shortName := "Shed", isMapEntry := false
          fields := [
            .plain (shedField "sizes" 1 .int32 true),
            .map { shedField "rooms" 2 (.message shedRef) false with initial := .emptyMap }
              (.plain (shedField "key" 1 .string false))
              (.plain (shedField "value" 2 (.message shedRef) false))]
          comment := some " A shed." }
        [.enum ⟨"Roof", "Shed.Roof", "Shed.Roof", [⟨"FLAT", 0, none⟩], none⟩]]
    services := [⟨"Sheds", [⟨"Build", shedRef, shedRef, none⟩], none⟩]
    imports := { file := "shed.proto", language := .typeScript } }

/-- The module of the shed is nested, and its line between the two readers of the list ends one block
and begins another. -/
theorem moduleText_nested_shed :
    .middle "\x7d else \x7b" ∈ moduleLines { language := .typeScript } shed ∧
      Nested (moduleText { language := .typeScript } shed).toList ∧
      Printer.printAll? "  " {} (moduleLines { language := .typeScript } shed) =
        some ⟨moduleText { language := .typeScript } shed, 0⟩ := by
  have h := moduleText_nested { language := .typeScript } shed (by decide +kernel)
  exact ⟨by decide +kernel, h.1, h.2.2⟩

end ProtoStub.Script
