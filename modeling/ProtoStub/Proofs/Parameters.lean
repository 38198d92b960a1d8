import Mathlib
import ProtoStub.Options
import ProtoStub.Proofs.Characters
import ProtoStub.Proofs.ImportNames
import ProtoStub.Proofs.Numerals

/-!
# Parameters

A parameter is read part by part, and a part makes a setting if it is a key and one of the spellings
of a value, with an equals sign between them and any white space around them (`Setting.Spelled`).
Two parameters are merged as texts. That this keeps them apart, so that neither changes what the
other says, is the content of `settingsOf_merge`. What options come out is then told option by
option (`Chosen`): the last value that the second parameter gives, else the last that the first one
gives, else the default (`ofParameter_merge`).
-/

namespace ProtoStub

namespace Text

/-! ## White space around a text -/

/-- A text of nothing but white space. -/
def Blanks (s : String) : Prop := All (isBlank · = true) s

theorem dropWhile_append_cons {c : Char} (hc : isBlank c = false) (before after : List Char) :
    (before ++ c :: after).dropWhile isBlank = before.dropWhile isBlank ++ c :: after := by
  rw [List.dropWhile_append]
  split
  · next hempty => simp [List.isEmpty_iff.1 hempty, hc]
  · rfl

theorem trimEndChars_append {blanks : List Char} (hblanks : ∀ c ∈ blanks, isBlank c = true)
    (cs : List Char) : trimEndChars (cs ++ blanks) = trimEndChars cs := by
  rw [trimEndChars, List.reverse_append, List.dropWhile_append_of_pos, trimEndChars]
  exact fun c hc => hblanks c (List.mem_reverse.1 hc)

/-- What stands around a character that is no blank is trimmed on its own. -/
theorem trimChars_append_cons {c : Char} (hc : isBlank c = false) (before after : List Char) :
    trimChars (before ++ c :: after) = before.dropWhile isBlank ++ c :: trimEndChars after := by
  rw [trimChars, dropWhile_append_cons hc, trimEndChars, List.reverse_append, List.reverse_cons,
    List.append_assoc, List.singleton_append, dropWhile_append_cons hc, trimEndChars]
  simp

theorem trim_blanks_append {b : String} (hb : Blanks b) (s : String) : trim (b ++ s) = trim s := by
  rw [trim, trimChars, String.toList_append, List.dropWhile_append_of_pos hb]
  rfl

theorem trim_append_blanks {b : String} (hb : Blanks b) (s : String) : trim (s ++ b) = trim s := by
  have hdrop : b.toList.dropWhile isBlank = [] := List.dropWhile_eq_nil_iff.2 hb
  rw [trim, trim, trimChars, trimChars, String.toList_append, List.dropWhile_append]
  split
  · next hempty => rw [List.isEmpty_iff.1 hempty, hdrop]
  · rw [trimEndChars_append hb]

/-- Trimming can be done at one end after the other. -/
theorem trim_dropWhile (s : String) : trim (.ofList (s.toList.dropWhile isBlank)) = trim s := by
  have hblanks : Blanks (.ofList (s.toList.takeWhile isBlank)) :=
    all_ofList.2 fun c => List.mem_takeWhile_imp
  rw [← trim_blanks_append hblanks, ← String.ofList_append, List.takeWhile_append_dropWhile,
    String.ofList_toList]

theorem trim_trimEnd (s : String) : trim (trimEnd s) = trim s := by
  have hblanks : Blanks (.ofList (s.toList.rtakeWhile isBlank)) :=
    all_ofList.2 fun c => List.mem_rtakeWhile_imp
  have hend : trimEndChars s.toList ++ s.toList.rtakeWhile isBlank = s.toList :=
    List.rdropWhile_append_rtakeWhile
  rw [← trim_append_blanks hblanks, trimEnd, ← String.ofList_append, hend, String.ofList_toList]

/-- A text is its trimmed form with white space around it. -/
theorem exists_trim_eq (s : String) : ∃ b b', Blanks b ∧ Blanks b' ∧ s = b ++ trim s ++ b' := by
  refine ⟨.ofList (s.toList.takeWhile isBlank),
    .ofList ((s.toList.dropWhile isBlank).rtakeWhile isBlank), ?_, ?_, ?_⟩
  · exact all_ofList.2 fun c => List.mem_takeWhile_imp
  · exact all_ofList.2 fun c => List.mem_rtakeWhile_imp
  · have hend : trimChars s.toList ++ (s.toList.dropWhile isBlank).rtakeWhile isBlank =
        s.toList.dropWhile isBlank := List.rdropWhile_append_rtakeWhile
    rw [trim, ← String.ofList_append, ← String.ofList_append, List.append_assoc, hend,
      List.takeWhile_append_dropWhile, String.ofList_toList]

/-! ## Cutting at separators -/

theorem splitAtEach_ne_nil (sep : Char) (cs : List Char) : splitAtEach sep cs ≠ [] := by
  rw [splitAtEach_eq_splitOn]
  exact List.splitOn_ne_nil sep cs

theorem splitAtEach_append_sep (sep : Char) (before after : List Char) :
    splitAtEach sep (before ++ sep :: after) = splitAtEach sep before ++ splitAtEach sep after := by
  induction before with
  | nil => simp [splitAtEach]
  | cons c before ih =>
    rw [List.cons_append, splitAtEach, splitAtEach, ih]
    split
    · rfl
    · cases h : splitAtEach sep before with
      | nil => exact absurd h (splitAtEach_ne_nil sep before)
      | cons => rfl

/-- What is put before a text goes to its first piece. -/
theorem exists_splitAtEach_prepend {sep : Char} {added : List Char} (h : sep ∉ added)
    (cs : List Char) : ∃ first rest, splitAtEach sep cs = first :: rest ∧
      splitAtEach sep (added ++ cs) = (added ++ first) :: rest := by
  obtain ⟨first, rest, hcs⟩ := List.exists_cons_of_ne_nil (splitAtEach_ne_nil sep cs)
  refine ⟨first, rest, hcs, ?_⟩
  induction added with
  | nil => exact hcs
  | cons c added ih =>
    rw [List.mem_cons, not_or] at h
    rw [List.cons_append, splitAtEach, if_neg (Ne.symm h.1), ih h.2]
    rfl

/-- What is put behind a text goes to its last piece. -/
theorem exists_splitAtEach_append {sep : Char} {added : List Char} (h : sep ∉ added)
    (cs : List Char) : ∃ front last, splitAtEach sep cs = front ++ [last] ∧
      splitAtEach sep (cs ++ added) = front ++ [last ++ added] := by
  induction cs with
  | nil =>
    obtain ⟨first, rest, hnil, hadded⟩ := exists_splitAtEach_prepend h []
    cases hnil
    exact ⟨[], [], rfl, by simpa using hadded⟩
  | cons c cs ih =>
    obtain ⟨front, last, hcs, hadded⟩ := ih
    rw [List.cons_append, splitAtEach, splitAtEach, hcs, hadded]
    split
    · exact ⟨[] :: front, last, rfl, rfl⟩
    · cases front with
      | nil => exact ⟨[], c :: last, rfl, rfl⟩
      | cons first front => exact ⟨(c :: first) :: front, last, rfl, rfl⟩

theorem not_mem_of_blanks {b : String} (hb : Blanks b) {c : Char} (hc : isBlank c = false) :
    c ∉ b.toList := by
  intro hmem
  rw [hb c hmem] at hc
  cases hc

end Text

namespace Options

/-! ## What a part says -/

namespace Setting

/-- The key of a setting. -/
def key : Setting → String
  | language _ => "language"
  | emitDefaults _ => "json.emitFieldsWithDefaultValues"
  | protoNames _ => "json.useProtoFieldName"

/-- The spellings of the value of a setting. -/
def spellings : Setting → List String
  | language .javaScript => ["javascript", "js"]
  | language .typeScript => ["typescript", "ts"]
  | emitDefaults true | protoNames true => ["true", "1"]
  | emitDefaults false | protoNames false => ["false", "0"]

/-- A part with a key and a value, and white space around them. -/
inductive Pair (key value : String) : String → Prop
  | intro {b₁ b₂ b₃ b₄ : String} (h₁ : Text.Blanks b₁) (h₂ : Text.Blanks b₂) (h₃ : Text.Blanks b₃)
      (h₄ : Text.Blanks b₄) : Pair key value (b₁ ++ key ++ b₂ ++ "=" ++ (b₃ ++ value ++ b₄))

/-- A part makes a setting: it has the key of the setting and a spelling of its value. -/
def Spelled (setting : Setting) (part : String) : Prop :=
  ∃ value ∈ setting.spellings, Pair setting.key value part

theorem ofName?_eq_some_iff {name : String} {value : Language} :
    Language.ofName? name = some value ↔ name ∈ (language value).spellings := by
  unfold Language.ofName?
  split <;> cases value <;> simp_all [spellings]

theorem flag?_eq_some_iff {name : String} {value : Bool} :
    flag? name = some value ↔ name ∈ (emitDefaults value).spellings := by
  unfold flag?
  split <;> cases value <;> simp_all [spellings]

theorem ofPair?_eq_some_iff {key value : String} {setting : Setting} :
    ofPair? key value = some setting ↔ key = setting.key ∧ value ∈ setting.spellings := by
  unfold ofPair?
  split
  · cases setting <;> simp [Setting.key, ofName?_eq_some_iff]
  · cases setting <;> simp [Setting.key, flag?_eq_some_iff]
  · cases setting with
    | protoNames b => cases b <;> simp [Setting.key, flag?_eq_some_iff, spellings]
    | _ => simp [Setting.key]
  · cases setting <;> simp_all [Setting.key]

/-- A part without an equals sign says nothing. -/
theorem ofPart?_of_not_mem {part : String} (h : '=' ∉ part.toList) : ofPart? part = none := by
  obtain ⟨b, b', -, -, hpart⟩ := Text.exists_trim_eq part
  have htrim : '=' ∉ (Text.trim part).toList := by
    rw [hpart] at h
    simp only [String.toList_append, List.mem_append, not_or] at h
    exact h.1.2
  have hcut : Text.cut? '=' (Text.trim part) = none := by
    rw [Text.cut?, Text.cutAtFirst_of_not_mem htrim]
    rfl
  rw [ofPart?, hcut]
  rfl

/-- A part is cut at its first equals sign, and both sides are trimmed. -/
theorem ofPart?_append {before : String} (h : '=' ∉ before.toList) (after : String) :
    ofPart? (before ++ "=" ++ after) = ofPair? (Text.trim before) (Text.trim after) := by
  have htrim : (Text.trim (before ++ "=" ++ after)).toList =
      before.toList.dropWhile Text.isBlank ++ '=' :: Text.trimEndChars after.toList := by
    rw [Text.trim, String.toList_ofList, ← Text.trimChars_append_cons (by decide)]
    simp
  have hbefore : '=' ∉ before.toList.dropWhile Text.isBlank :=
    fun hmem => h ((List.dropWhile_sublist _).subset hmem)
  have hafter : Text.trim (.ofList (Text.trimEndChars after.toList)) = Text.trim after :=
    Text.trim_trimEnd after
  rw [ofPart?, Text.cut?, htrim, Text.cutAtFirst_append hbefore, Option.map_some, Option.bind_some,
    Text.trim_dropWhile, hafter]

/-- The white space of a part makes no difference. -/
theorem ofPart?_of_pair {key value part : String} (hkey : '=' ∉ key.toList)
    (h : Pair key value part) : ofPart? part = ofPair? (Text.trim key) (Text.trim value) := by
  cases h with
  | @intro b₁ b₂ b₃ b₄ h₁ h₂ h₃ h₄ => ?_
  have hbefore : '=' ∉ (b₁ ++ key ++ b₂).toList := by
    simp only [String.toList_append, List.mem_append, not_or]
    exact ⟨⟨Text.not_mem_of_blanks h₁ (by decide), hkey⟩, Text.not_mem_of_blanks h₂ (by decide)⟩
  rw [ofPart?_append hbefore, Text.trim_append_blanks h₂, Text.trim_blanks_append h₁,
    Text.trim_append_blanks h₄, Text.trim_blanks_append h₃]

theorem pair_append (before after : String) :
    Pair (Text.trim before) (Text.trim after) (before ++ "=" ++ after) := by
  obtain ⟨b₁, b₂, h₁, h₂, hbefore⟩ := Text.exists_trim_eq before
  obtain ⟨b₃, b₄, h₃, h₄, hafter⟩ := Text.exists_trim_eq after
  have hpair : Pair (Text.trim before) (Text.trim after) _ := .intro h₁ h₂ h₃ h₄
  rwa [← hbefore, ← hafter] at hpair

theorem trim_word {cs : List Char} (h : (cs.all fun c => !Text.isBlank c) = true) :
    Text.trim (.ofList cs) = .ofList cs := by
  apply Text.trim_of_forall
  simpa using h

/-- A key is its own trimmed form, and so is a spelling. -/
theorem trim_key (setting : Setting) : Text.trim setting.key = setting.key := by
  cases setting <;> exact trim_word rfl

theorem trim_of_mem_spellings {setting : Setting} {value : String}
    (h : value ∈ setting.spellings) : Text.trim value = value := by
  rcases setting with (_ | _) | (_ | _) | (_ | _) <;>
    rcases List.mem_pair.1 h with rfl | rfl <;> exact trim_word rfl

theorem not_mem_key (setting : Setting) : '=' ∉ setting.key.toList := by
  have hword : ∀ {cs : List Char}, cs.elem '=' = false → '=' ∉ (String.ofList cs).toList := by
    simp
  cases setting <;> exact hword rfl

/-- A part makes the setting that it spells, and no other. -/
theorem ofPart?_eq_some_iff {part : String} {setting : Setting} :
    ofPart? part = some setting ↔ setting.Spelled part := by
  constructor
  · intro h
    by_cases hmem : '=' ∈ part.toList
    · obtain ⟨before, after, hpart, hbefore⟩ := List.eq_append_cons_of_mem hmem
      obtain rfl : part = .ofList before ++ "=" ++ .ofList after := by
        apply String.toList_inj.1
        simp [hpart]
      rw [ofPart?_append (by rwa [String.toList_ofList]), ofPair?_eq_some_iff] at h
      refine ⟨_, h.2, ?_⟩
      rw [← h.1]
      exact pair_append _ _
    · rw [ofPart?_of_not_mem hmem] at h
      cases h
  · rintro ⟨value, hvalue, hpair⟩
    rw [ofPart?_of_pair setting.not_mem_key hpair, trim_key, trim_of_mem_spellings hvalue,
      ofPair?_eq_some_iff]
    exact ⟨rfl, hvalue⟩

end Setting

/-! ## Merging -/

/-- The parts of a parameter, of which a missing one has none. -/
def parts : Option String → List String
  | none => []
  | some s => Text.pieces ',' s

/-- The settings of a parameter that may be missing. -/
def settingsOf (parameter : Option String) : List Setting :=
  (parts parameter).filterMap Setting.ofPart?

theorem settings_append (s t : String) : settings (s ++ "," ++ t) = settings s ++ settings t := by
  have hlist : (s ++ "," ++ t).toList = s.toList ++ ',' :: t.toList := by simp
  rw [settings, Text.pieces, hlist, Text.splitAtEach_append_sep, List.map_append,
    List.filterMap_append]
  rfl

theorem settings_blanks_append {b : String} (hb : Text.Blanks b) (s : String) :
    settings (b ++ s) = settings s := by
  obtain ⟨first, rest, hs, hadded⟩ :=
    Text.exists_splitAtEach_prepend (Text.not_mem_of_blanks hb (c := ',') (by decide)) s.toList
  have hfirst : Setting.ofPart? (.ofList (b.toList ++ first)) =
      Setting.ofPart? (.ofList first) := by
    rw [Setting.ofPart?, String.ofList_append, String.ofList_toList, Text.trim_blanks_append hb,
      Setting.ofPart?]
  rw [settings, settings, Text.pieces, Text.pieces, String.toList_append, hadded, hs, List.map_cons,
    List.map_cons, List.filterMap_cons, List.filterMap_cons, hfirst]

theorem settings_append_blanks {b : String} (hb : Text.Blanks b) (s : String) :
    settings (s ++ b) = settings s := by
  obtain ⟨front, last, hs, hadded⟩ :=
    Text.exists_splitAtEach_append (Text.not_mem_of_blanks hb (c := ',') (by decide)) s.toList
  have hlast : Setting.ofPart? (.ofList (last ++ b.toList)) = Setting.ofPart? (.ofList last) := by
    rw [Setting.ofPart?, String.ofList_append, String.ofList_toList, Text.trim_append_blanks hb,
      Setting.ofPart?]
  rw [settings, settings, Text.pieces, Text.pieces, String.toList_append, hadded, hs,
    List.map_append, List.map_append, List.filterMap_append, List.filterMap_append,
    List.map_singleton, List.map_singleton, List.filterMap_cons, List.filterMap_cons, hlast]

theorem settings_trim (s : String) : settings (Text.trim s) = settings s := by
  obtain ⟨b, b', hb, hb', hs⟩ := Text.exists_trim_eq s
  conv_rhs => rw [hs]
  rw [settings_append_blanks hb', settings_blanks_append hb]

theorem settings_intercalate {texts : List String} (hne : texts ≠ []) :
    settings (",".intercalate texts) = texts.flatMap settings := by
  induction texts with
  | nil => exact absurd rfl hne
  | cons text texts ih =>
    by_cases hrest : texts = []
    · simp [hrest]
    · rw [String.intercalate_cons_of_ne_nil hrest, settings_append, ih hrest, List.flatMap_cons]

/-- A text that is blank says nothing. -/
theorem flatMap_settings_filter (texts : List String) :
    ((texts.map Text.trim).filter (· ≠ "")).flatMap settings = texts.flatMap settings := by
  induction texts with
  | nil => rfl
  | cons text texts ih =>
    have htext : settings (Text.trim text) = settings text := settings_trim text
    rw [List.map_cons, List.filter_cons]
    split
    · rw [List.flatMap_cons, List.flatMap_cons, ih, htext]
    · next hblank =>
      have hempty : Text.trim text = "" := by simpa using hblank
      rw [hempty] at htext
      rw [ih, List.flatMap_cons, ← htext]
      rfl

/-- Merged parameters say what the first and then what the second says. -/
theorem settingsOf_merge (first second : Option String) :
    settingsOf (mergeParameters first second) = settingsOf first ++ settingsOf second := by
  have hall : settingsOf (mergeParameters first second) =
      ([first, second].filterMap id).flatMap settings := by
    rw [← flatMap_settings_filter, mergeParameters]
    generalize (([first, second].filterMap id).map Text.trim).filter (· ≠ "") = texts
    cases texts with
    | nil => rfl
    | cons text texts => exact settings_intercalate (List.cons_ne_nil text texts)
  rw [hall]
  cases first <;> cases second <;> simp [settingsOf, parts, settings]

/-! ## The options of merged parameters -/

section

variable {α : Type} (make : α → Setting)

/-- No part gives a value to an option. -/
def NotGiven (texts : List String) : Prop := ∀ part ∈ texts, ∀ v, ¬(make v).Spelled part

/-- The last part that gives a value to an option gives it this one. -/
def LastGiven (texts : List String) (value : α) : Prop :=
  ∃ before part after, texts = before ++ part :: after ∧ (make value).Spelled part ∧
    NotGiven make after

/-- The value of an option that the second parameter gives, or else the first one, or else the
default. -/
inductive Chosen (default : α) (first second : Option String) : α → Prop
  | second {value : α} (given : LastGiven make (parts second) value) :
      Chosen default first second value
  | first {value : α} (notGiven : NotGiven make (parts second))
      (given : LastGiven make (parts first) value) : Chosen default first second value
  | default (notGiven : NotGiven make (parts second)) (notGiven' : NotGiven make (parts first)) :
      Chosen default first second default

end

/-- Settings of one kind set an option, and no other settings do. -/
structure Sets {α : Type} (make : α → Setting) (get : Options → α) : Prop where
  made : ∀ options v, get (apply options (make v)) = v
  other : ∀ options setting, (∀ v, setting ≠ make v) → get (apply options setting) = get options

theorem sets_language : Sets .language Options.language := by
  refine ⟨fun _ _ => rfl, fun options setting h => ?_⟩
  cases setting with
  | language v => exact absurd rfl (h v)
  | _ => rfl

theorem sets_emitDefaults : Sets .emitDefaults Options.emitDefaults := by
  refine ⟨fun _ _ => rfl, fun options setting h => ?_⟩
  cases setting with
  | emitDefaults v => exact absurd rfl (h v)
  | _ => rfl

theorem sets_protoNames : Sets .protoNames Options.protoNames := by
  refine ⟨fun _ _ => rfl, fun options setting h => ?_⟩
  cases setting with
  | protoNames v => exact absurd rfl (h v)
  | _ => rfl

theorem indent_foldl (settings : List Setting) (options : Options) :
    (settings.foldl apply options).indent = options.indent := by
  induction settings generalizing options with
  | nil => rfl
  | cons setting settings ih =>
    rw [List.foldl_cons, ih]
    cases setting <;> rfl

theorem ofParameter_eq (parameter : Option String) :
    ofParameter parameter = (settingsOf parameter).foldl apply {} := by
  cases parameter <;> rfl

section

variable {α : Type} {make : α → Setting} {get : Options → α} {texts : List String}

theorem notGiven_or_lastGiven (make : α → Setting) (texts : List String) :
    NotGiven make texts ∨ ∃ v, LastGiven make texts v := by
  induction texts with
  | nil => exact .inl (List.forall_mem_nil _)
  | cons part texts ih =>
    rcases ih with hnone | ⟨v, before, part', after, rfl, hlast⟩
    · by_cases hpart : ∃ v, (make v).Spelled part
      · obtain ⟨v, hpart⟩ := hpart
        exact .inr ⟨v, [], part, texts, rfl, hpart, hnone⟩
      · exact .inl (List.forall_mem_cons.2 ⟨not_exists.1 hpart, hnone⟩)
    · exact .inr ⟨v, part :: before, part', after, rfl, hlast⟩

theorem Sets.get_of_notGiven (h : Sets make get) (options : Options) (hnone : NotGiven make texts) :
    get ((texts.filterMap Setting.ofPart?).foldl apply options) = get options := by
  induction texts generalizing options with
  | nil => rfl
  | cons part texts ih =>
    rw [NotGiven, List.forall_mem_cons] at hnone
    rw [List.filterMap_cons]
    cases hpart : Setting.ofPart? part with
    | none => exact ih options hnone.2
    | some setting =>
      have hother : ∀ v, setting ≠ make v := by
        rintro v rfl
        exact hnone.1 v (Setting.ofPart?_eq_some_iff.1 hpart)
      rw [← h.other options setting hother]
      exact ih _ hnone.2

theorem Sets.get_of_lastGiven (h : Sets make get) (options : Options) {v : α}
    (hlast : LastGiven make texts v) :
    get ((texts.filterMap Setting.ofPart?).foldl apply options) = v := by
  obtain ⟨before, part, after, rfl, hpart, hafter⟩ := hlast
  rw [List.filterMap_append, List.filterMap_cons, Setting.ofPart?_eq_some_iff.2 hpart,
    List.foldl_append, List.foldl_cons, h.get_of_notGiven _ hafter]
  exact h.made _ v

/-- Each option is chosen among the values that two parameters give it. -/
theorem Sets.chosen_iff (h : Sets make get) (first second : Option String) {v : α} :
    Chosen make (get {}) first second v ↔ v = get (ofParameter (mergeParameters first second)) := by
  rw [ofParameter_eq, settingsOf_merge, List.foldl_append]
  constructor
  · rintro (hgiven | ⟨hnone, hgiven⟩ | ⟨hnone, hnone'⟩)
    · exact (h.get_of_lastGiven _ hgiven).symm
    · rw [settingsOf, settingsOf, h.get_of_notGiven _ hnone, h.get_of_lastGiven _ hgiven]
    · rw [settingsOf, settingsOf, h.get_of_notGiven _ hnone, h.get_of_notGiven _ hnone']
  · rintro rfl
    rcases notGiven_or_lastGiven make (parts second) with hnone | ⟨v, hgiven⟩
    · rw [settingsOf, settingsOf, h.get_of_notGiven _ hnone]
      rcases notGiven_or_lastGiven make (parts first) with hnone' | ⟨v, hgiven⟩
      · rw [h.get_of_notGiven _ hnone']
        exact .default hnone hnone'
      · rw [h.get_of_lastGiven _ hgiven]
        exact .first hnone hgiven
    · rw [settingsOf, settingsOf, h.get_of_lastGiven _ hgiven]
      exact .second hgiven

end

/-! ## What makes no difference -/

/-- A change to the parts of a parameter that says nothing: a part that makes no setting is dropped,
or white space is changed around a part or around its key and its value. -/
inductive Edit : List String → List String → Prop
  | drop {before after : List String} {part : String}
      (nothing : ∀ setting : Setting, ¬setting.Spelled part) :
      Edit (before ++ part :: after) (before ++ after)
  | space {before after : List String} {key value part part' : String} (cut : '=' ∉ key.toList)
      (pair : Setting.Pair key value part) (pair' : Setting.Pair key value part') :
      Edit (before ++ part :: after) (before ++ part' :: after)

theorem Edit.filterMap_eq {texts texts' : List String} (h : Edit texts texts') :
    texts.filterMap Setting.ofPart? = texts'.filterMap Setting.ofPart? := by
  cases h with
  | @drop before after part hnothing =>
    have hnone : Setting.ofPart? part = none :=
      Option.eq_none_iff_forall_ne_some.2 fun setting hsome =>
        hnothing setting (Setting.ofPart?_eq_some_iff.1 hsome)
    rw [List.filterMap_append, List.filterMap_cons, hnone, List.filterMap_append]
  | space hcut hpair hpair' =>
    rw [List.filterMap_append, List.filterMap_cons, Setting.ofPart?_of_pair hcut hpair,
      List.filterMap_append, List.filterMap_cons, Setting.ofPart?_of_pair hcut hpair']

theorem filterMap_eq_of_edits {texts texts' : List String} (h : Relation.EqvGen Edit texts texts') :
    texts.filterMap Setting.ofPart? = texts'.filterMap Setting.ofPart? := by
  induction h with
  | rel _ _ hedit => exact hedit.filterMap_eq
  | refl => rfl
  | symm _ _ _ ih => exact ih.symm
  | trans _ _ _ _ _ ih ih' => exact ih.trans ih'

/-- The options of two merged parameters: each of the three has the last value that a well-formed
part of the second parameter gives it, else the last that the first one gives it, else its default,
and nothing else is set. Parts that make no setting and white space change nothing in either of the
two. -/
theorem ofParameter_merge (first second : Option String) :
    let options := ofParameter (mergeParameters first second)
    (∀ v, Chosen .language .javaScript first second v ↔ v = options.language) ∧
      (∀ v, Chosen .emitDefaults false first second v ↔ v = options.emitDefaults) ∧
      (∀ v, Chosen .protoNames false first second v ↔ v = options.protoNames) ∧
      options.indent = "  " ∧
      ∀ first' second', Relation.EqvGen Edit (parts first) (parts first') →
        Relation.EqvGen Edit (parts second) (parts second') →
          ofParameter (mergeParameters first' second') = options := by
  intro options
  have hoptions : options = (settingsOf first ++ settingsOf second).foldl apply {} := by
    rw [← settingsOf_merge, ← ofParameter_eq]
  refine ⟨fun v => sets_language.chosen_iff first second,
    fun v => sets_emitDefaults.chosen_iff first second,
    fun v => sets_protoNames.chosen_iff first second, ?_, ?_⟩
  · rw [hoptions]
    exact indent_foldl _ {}
  · intro first' second' hfirst hsecond
    have hfirst : settingsOf first = settingsOf first' := filterMap_eq_of_edits hfirst
    have hsecond : settingsOf second = settingsOf second' := filterMap_eq_of_edits hsecond
    rw [ofParameter_eq, settingsOf_merge, hoptions, hfirst, hsecond]

/-- Neither a part without a value, a value that is none, a second equals sign nor white space keeps
the last language of the second parameter from being chosen, and the first parameter keeps what the
second does not give. -/
theorem ofParameter_merge_javaScript :
    let first := some " language = ts ,json.useProtoFieldName=1, "
    let second := some "verbose,\tlanguage\t=js,=,language=ts=js"
    let options : Options := { language := .javaScript, emitDefaults := false, protoNames := true }
    ofParameter (mergeParameters first second) = options ∧
      Chosen .language .javaScript first second .javaScript ∧
      Chosen .emitDefaults false first second false ∧
      Chosen .protoNames false first second true ∧
      ofParameter (mergeParameters first (some "\tlanguage\t=js,=,language=ts=js")) = options := by
  intro first second options
  have hoptions : ofParameter (mergeParameters first second) = options := by decide +kernel
  have hnothing : ∀ setting : Setting, ¬setting.Spelled "verbose" := by
    intro setting hspelled
    have hnone : Setting.ofPart? "verbose" = none := by decide +kernel
    rw [Setting.ofPart?_eq_some_iff.2 hspelled] at hnone
    cases hnone
  have hparts : parts second =
      [] ++ "verbose" :: ["\tlanguage\t=js", "=", "language=ts=js"] := by decide +kernel
  have hparts' : parts (some "\tlanguage\t=js,=,language=ts=js") =
      [] ++ ["\tlanguage\t=js", "=", "language=ts=js"] := by decide +kernel
  obtain ⟨hlanguage, hdefaults, hnames, -, hedits⟩ := ofParameter_merge first second
  rw [hoptions] at hlanguage hdefaults hnames hedits
  refine ⟨hoptions, (hlanguage _).2 rfl, (hdefaults _).2 rfl, (hnames _).2 rfl, ?_⟩
  refine hedits first _ (.refl _) ?_
  rw [hparts, hparts']
  exact .rel _ _ (.drop hnothing)

end Options

end ProtoStub
