import Mathlib
import ProtoStub.Proofs.NestedMessages

/-!
# Members of oneofs in documents

An object names the members of a oneof like any other fields. Each field is read by itself, so a
message that is read from a document has every member that the document gives, and no member of a
oneof makes another one go. Whether there is at most one member of each oneof is therefore up to
the document: to the object that is read as the message, and to every object in it that is read
as a message inside the message (`Describes`).

A field takes the first of its names that the object has with a value other than null
(`Field.given?`). What is then read as the values of the field are its `Field.documents`; in order
they are the messages that the field holds afterwards (`forall₂_of_contentOfJson`).
-/

namespace ProtoStub

/-! ## What documents give to fields -/

/-- The items of an array; nothing else has any. -/
def Json.items : Json → List Json
  | .array items => items
  | _ => []

/-- The members of an object; nothing else has any. -/
def Json.members : Json → List (String × Json)
  | .object members => members
  | _ => []

/-- The document that a document gives to a field: that of the first of the field's names for which
there is one other than null. -/
def Field.given? (field : Field) (json : Json) : Option Json :=
  (field.info.readNames.filterMap (KeyMap.find? json.members)).find? (!·.isNull)

/-- The documents that are read as the values of a field: the members of an object, the items of an
array, or the whole. Of members with the same name the last one counts. -/
def Field.documents : Field → Json → List Json
  | .map _ _ _, json => (KeyMap.ofPairs json.members).map (·.2)
  | .plain info, json => if info.repeated then json.items else [json]

theorem Json.mem_parts_of_mem_items {json item : Json} (h : item ∈ json.items) :
    item ∈ json.parts := by
  cases json with
  | array items => exact h
  | _ => cases h

theorem Json.mem_parts_of_mem_members {json : Json} {p : String × Json} (h : p ∈ json.members) :
    p.2 ∈ json.parts := by
  cases json with
  | object members => exact List.mem_map.2 ⟨p, h, rfl⟩
  | _ => cases h

theorem Field.mem_parts_of_given? {field : Field} {json given : Json}
    (h : field.given? json = some given) : given ∈ json.parts := by
  obtain ⟨name, -, hname⟩ := List.mem_filterMap.1 (List.mem_of_find?_eq_some h)
  exact Json.mem_parts_of_mem_members (KeyMap.mem_of_find? hname)

theorem KeyMap.mem_of_mem_ofPairs {α : Type} {pairs : List (String × α)} {p : String × α}
    (h : p ∈ KeyMap.ofPairs pairs) : p ∈ pairs := by
  have hfold : ∀ (pairs : List (String × α)) (before : KeyMap α),
      p ∈ pairs.foldl (fun m p => KeyMap.insert m p.1 p.2) before → p ∈ before ∨ p ∈ pairs := by
    intro pairs
    induction pairs with
    | nil => exact fun before hp => .inl hp
    | cons first rest ih =>
      intro before hp
      rcases ih _ hp with hp | hp
      · rcases KeyMap.mem_insert hp with rfl | hp
        · exact .inr List.mem_cons_self
        · exact .inl hp
      · exact .inr (List.mem_cons_of_mem _ hp)
  exact (hfold pairs [] h).resolve_left List.not_mem_nil

theorem Field.mem_documents {field : Field} {json document : Json}
    (h : document ∈ field.documents json) : document = json ∨ document ∈ json.parts := by
  cases field with
  | map info key value =>
    obtain ⟨p, hp, rfl⟩ := List.mem_map.1 h
    exact .inr (Json.mem_parts_of_mem_members (KeyMap.mem_of_mem_ofPairs hp))
  | plain info =>
    rw [Field.documents] at h
    by_cases hrepeated : info.repeated = true
    · rw [if_pos hrepeated] at h
      exact .inr (Json.mem_parts_of_mem_items h)
    · rw [if_neg hrepeated] at h
      exact .inl (List.mem_singleton.1 h)

/-- Two maps with the same keys, whose values go together. -/
def KeyMap.Matches {α β : Type} (R : α → β → Prop) : KeyMap α → KeyMap β → Prop :=
  List.Forall₂ fun p q => p.1 = q.1 ∧ R p.2 q.2

theorem KeyMap.Matches.insert {α β : Type} {R : α → β → Prop} {m : KeyMap α} {n : KeyMap β}
    (h : KeyMap.Matches R m n) (key : String) {a : α} {b : β} (hab : R a b) :
    KeyMap.Matches R (KeyMap.insert m key a) (KeyMap.insert n key b) := by
  induction h with
  | nil => exact .cons ⟨rfl, hab⟩ .nil
  | @cons p q m n hpq hrest ih =>
    obtain ⟨k, x⟩ := p
    obtain ⟨k', y⟩ := q
    obtain ⟨rfl, hxy⟩ : k = k' ∧ R x y := hpq
    rw [KeyMap.insert, KeyMap.insert]
    split
    · exact .cons ⟨rfl, hab⟩ (.cons ⟨rfl, hxy⟩ hrest)
    · split
      · exact .cons ⟨rfl, hab⟩ hrest
      · exact .cons ⟨rfl, hxy⟩ ih

namespace Codec

open Wire

/-- An object gives at most one member of each oneof. -/
def OneGiven (decl : MessageDecl) (json : Json) : Prop :=
  ∀ f ∈ decl.fields, ∀ g ∈ decl.fields, f.info.oneof.isSome = true →
    f.info.oneof = g.info.oneof → (f.given? json).isSome = true →
    (g.given? json).isSome = true → f = g

instance (decl : MessageDecl) (json : Json) : Decidable (OneGiven decl json) := by
  unfold OneGiven
  infer_instance

/-- A document that is read as a message of a type, and the documents in it that are read as the
messages inside the message. -/
inductive Describes (codec : Codec) : MessageDecl → Json → MessageDecl → Json → Prop
  | self {decl : MessageDecl} {json : Json} : Describes codec decl json decl json
  | nested {decl inner part : MessageDecl} {json given document rest : Json} {field : Field}
      {target : TypeRef} (declared : field ∈ decl.fields) (gives : field.given? json = some given)
      (mem : document ∈ field.documents given) (content : field.contentKind = .message target)
      (resolves : codec.message target.fqName = .ok inner)
      (describes : Describes codec inner document part rest) : Describes codec decl json part rest

/-- At most one member of each oneof is given, in every object that is read as a message. -/
def OneGivenThroughout (codec : Codec) (decl : MessageDecl) (json : Json) : Prop :=
  ∀ part rest, Describes codec decl json part rest → OneGiven part rest

variable {codec : Codec} {decl : MessageDecl}

theorem oneGivenThroughout_iff {json : Json} :
    OneGivenThroughout codec decl json ↔ OneGiven decl json ∧ ∀ field ∈ decl.fields, ∀ given,
      field.given? json = some given → ∀ target inner, field.contentKind = .message target →
        codec.message target.fqName = .ok inner → ∀ document ∈ field.documents given,
          OneGivenThroughout codec inner document := by
  constructor
  · intro h
    refine ⟨h decl json .self, fun field hf given hgiven target inner hkind hinner document hmem
      part rest hrest => ?_⟩
    exact h part rest (.nested hf hgiven hmem hkind hinner hrest)
  · rintro ⟨hself, hfields⟩ part rest hrest
    cases hrest with
    | self => exact hself
    | nested hf hgiven hmem hkind hinner hrest =>
      exact hfields _ hf _ hgiven _ _ hkind hinner _ hmem part rest hrest

/-! ## The messages of a field -/

/-- A document is read as a message of a type. -/
def ReadAs (codec : Codec) (decl : MessageDecl) (json : Json) (m : Message) : Prop :=
  (codec.jsonView json).message decl (codec.fresh decl) = .ok m

/-- A document is read as a message of a type, which is then a value. -/
def ReadAsValue (codec : Codec) (decl : MessageDecl) (json : Json) (v : Value) : Prop :=
  ∃ m, v = .message m ∧ ReadAs codec decl json m

theorem messages_of_matches {documents : KeyMap Json} {entries : KeyMap Value}
    (h : KeyMap.Matches (ReadAsValue codec decl) documents entries) :
    List.Forall₂ (ReadAs codec decl) (documents.map (·.2)) (Value.map entries).messages := by
  induction h with
  | nil => exact .nil
  | @cons p q documents entries hpq _ ih =>
    obtain ⟨k, v⟩ := q
    obtain ⟨-, m, rfl, hm⟩ := hpq
    exact .cons hm ih

section Content

variable {target : TypeRef} (hproperties : ∀ decl ∈ codec.messages, decl.DistinctProperties)
  (hdecl : codec.message target.fqName = .ok decl)
include hproperties hdecl

theorem readAsValue_of_value {json : Json} {path : String} {v : Value}
    (h : (codec.jsonView json).value codec (.message target) path = .ok v) :
    ReadAsValue codec decl json v := by
  obtain ⟨decl', hdecl', h⟩ := Except.exists_of_bind h
  cases hdecl.symm.trans hdecl'
  obtain ⟨start, hstart, h⟩ := Except.exists_of_bind h
  obtain ⟨m, hm, rfl⟩ := exists_of_map_eq_ok h
  rw [eq_fresh_of_newMessage (hproperties decl (mem_of_message hdecl)) hstart] at hm
  exact ⟨m, rfl, hm⟩

theorem forall₂_of_itemsOfJson {documents : List Json} {path : String} {values : List Value}
    (h : itemsOfJson (.message target) path
      (documents.map fun json => (codec.jsonView json).value codec) = .ok values) :
    List.Forall₂ (ReadAs codec decl) documents (values.filterMap Value.asMessage?) := by
  induction documents generalizing values with
  | nil =>
    cases h
    exact .nil
  | cons json rest ih =>
    rw [List.map_cons, itemsOfJson] at h
    split at h
    · cases h
    next first hfirst =>
      obtain ⟨more, hmore, rfl⟩ := exists_of_map_eq_ok h
      obtain ⟨m, rfl, hm⟩ := readAsValue_of_value hproperties hdecl hfirst
      exact .cons hm (ih hmore)

theorem matches_of_entriesOfJson {members : List (String × Json)} {path : String}
    {documents : KeyMap Json} {before entries : KeyMap Value}
    (hbefore : KeyMap.Matches (ReadAsValue codec decl) documents before)
    (h : entriesOfJson (.message target) path before
      (members.map fun p => (p.1, (codec.jsonView p.2).value codec)) = .ok entries) :
    KeyMap.Matches (ReadAsValue codec decl)
      (members.foldl (fun m p => KeyMap.insert m p.1 p.2) documents) entries := by
  induction members generalizing documents before with
  | nil =>
    cases h
    exact hbefore
  | cons p rest ih =>
    rw [List.map_cons, entriesOfJson] at h
    split at h
    · cases h
    next value hvalue =>
      exact ih (hbefore.insert p.1 (readAsValue_of_value hproperties hdecl hvalue)) h

/-- The documents of a field are read as the messages that it holds afterwards. -/
theorem forall₂_of_contentOfJson {field : Field} (hkind : field.contentKind = .message target)
    {json : Json} {path : String} {old : Option Value} {v : Value}
    (hold : ∀ w, old = some w → w.messages = [])
    (h : codec.contentOfJson field path old (codec.jsonView json) = .ok v) :
    List.Forall₂ (ReadAs codec decl) (field.documents json) v.messages := by
  cases field with
  | map info key value =>
    cases json with
    | object members =>
      simp only [contentOfJson, jsonView_json] at h
      obtain ⟨entries, hentries, rfl⟩ := exists_of_map_eq_ok h
      have hmembers : (codec.jsonView (.object members)).members =
          members.map fun p => (p.1, (codec.jsonView p.2).value codec) := by
        rw [jsonView, memberViews_eq_map, List.map_map]
        rfl
      rw [hmembers, show value.info.kind = .message target from hkind] at hentries
      exact messages_of_matches (matches_of_entriesOfJson hproperties hdecl .nil hentries)
    | _ =>
      simp only [contentOfJson, jsonView_json] at h
      cases h
  | plain info =>
    have hkind' : info.kind = .message target := hkind
    by_cases hrepeated : info.repeated = true
    · rw [Field.documents, if_pos hrepeated]
      cases json with
      | array items =>
        simp only [contentOfJson, hrepeated, if_true, jsonView_json] at h
        obtain ⟨values, hvalues, rfl⟩ := exists_of_map_eq_ok h
        have hitems : (codec.jsonView (.array items)).items =
            items.map fun json => (codec.jsonView json).value codec := by
          rw [jsonView, itemViews_eq_map, List.map_map]
          rfl
        rw [hitems, hkind'] at hvalues
        exact forall₂_of_itemsOfJson hproperties hdecl hvalues
      | _ =>
        simp only [contentOfJson, hrepeated, if_true, jsonView_json] at h
        cases h
    · rw [Field.documents, if_neg hrepeated]
      rcases contentOfJson_single_cases (Bool.not_eq_true _ ▸ hrepeated) h with hv |
        ⟨_, _, start, _, _, rfl, _⟩
      · rw [hkind'] at hv
        obtain ⟨m, rfl, hm⟩ := readAsValue_of_value hproperties hdecl hv
        exact .cons hm .nil
      · -- there was a message before, which no default is
        cases hold _ rfl

end Content

/-! ## The fields of a message -/

theorem firstPresent?_memberViews (codec : Codec) (members : List (String × Json)) (field : Field) :
    firstPresent? (codec.memberViews members) field.info.readNames =
      (field.given? (.object members)).map codec.jsonView := by
  have hfind : KeyMap.find? (codec.memberViews members) =
      fun name => (KeyMap.find? members name).map codec.jsonView := by
    funext name
    rw [memberViews_eq_map]
    exact KeyMap.find?_map codec.jsonView members name
  rw [firstPresent?, hfind, ← List.map_filterMap, List.find?_map, Field.given?, Json.members]
  simp only [Function.comp_def, jsonView_json]

/-- Every field is read by itself. What the members do not give stays as it was. -/
theorem get?_fieldsOfJson {views : List (String × JsonView)} {fields : List Field}
    (hnames : (fields.map (·.info.name)).Nodup) {s m : Message}
    (h : codec.fieldsOfJson decl views fields s = .ok m) :
    (∀ name, (∀ field ∈ fields, field.info.name ≠ name) → m.get? name = s.get? name) ∧
      ∀ field ∈ fields,
        (firstPresent? views field.info.readNames = none →
          m.get? field.info.name = s.get? field.info.name) ∧
        ∀ view, firstPresent? views field.info.readNames = some view →
          ∃ v, codec.contentOfJson field (fieldPath decl field.info) (s.get? field.info.name) view =
            .ok v ∧ m.get? field.info.name = some v := by
  induction fields generalizing s with
  | nil =>
    cases h
    exact ⟨fun _ _ => rfl, fun field hf => absurd hf List.not_mem_nil⟩
  | cons first rest ih =>
    rw [List.map_cons, List.nodup_cons] at hnames
    have hapart : ∀ field ∈ rest, field.info.name ≠ first.info.name :=
      fun field hf heq => hnames.1 (heq ▸ List.mem_map_of_mem hf)
    rw [fieldsOfJson] at h
    cases hfound : firstPresent? views first.info.readNames with
    | none =>
      rw [hfound] at h
      obtain ⟨hother, hrest⟩ := ih hnames.2 h
      refine ⟨fun name hname => hother name (List.forall_mem_cons.1 hname).2, ?_⟩
      rw [List.forall_mem_cons]
      refine ⟨⟨fun _ => hother _ hapart, fun view hview => ?_⟩, hrest⟩
      rw [hfound] at hview
      cases hview
    | some view =>
      rw [hfound] at h
      cases hcontent : codec.contentOfJson first (fieldPath decl first.info)
          (s.get? first.info.name) view with
      | error e =>
        simp only [hcontent] at h
        cases h
      | ok v =>
        simp only [hcontent] at h
        obtain ⟨hother, hrest⟩ := ih hnames.2 h
        have hset : ∀ name, first.info.name ≠ name →
            (s.set first.info.name v).get? name = s.get? name :=
          fun name hne => by rw [Message.get?_set, if_neg hne]
        refine ⟨fun name hname => ?_, ?_⟩
        · rw [List.forall_mem_cons] at hname
          rw [hother name hname.2, hset name hname.1]
        · rw [List.forall_mem_cons]
          refine ⟨⟨fun hnone => ?_, fun view' hview => ⟨v, ?_, ?_⟩⟩, fun field hf => ?_⟩
          · rw [hfound] at hnone
            cases hnone
          · rw [hfound] at hview
            cases hview
            exact hcontent
          · rw [hother _ hapart, Message.get?_set, if_pos rfl]
          · rw [← hset field.info.name (hapart field hf).symm]
            exact hrest field hf

/-- What a field of a message holds that was read from a document. -/
theorem get?_of_readAs (hnames : decl.DistinctProperties) {json : Json} {m : Message}
    (h : ReadAs codec decl json m) {field : Field} (hf : field ∈ decl.fields) :
    (field.given? json = none → m.get? field.info.name = codec.defaultOf field) ∧
      ∀ given, field.given? json = some given →
        ∃ v, codec.contentOfJson field (fieldPath decl field.info) (codec.defaultOf field)
            (codec.jsonView given) = .ok v ∧ m.get? field.info.name = some v := by
  cases json with
  | object members =>
    rw [ReadAs, jsonView] at h
    obtain ⟨hnone, hsome⟩ := (get?_fieldsOfJson hnames h).2 field hf
    rw [firstPresent?_memberViews, get?_fresh hnames hf] at hnone hsome
    refine ⟨fun hgiven => hnone (by rw [hgiven]; rfl), fun given hgiven => ?_⟩
    exact hsome (codec.jsonView given) (by rw [hgiven]; rfl)
  | _ => cases h

/-! ## Members -/

/-- A member of a oneof is there if and only if the document gives it. -/
theorem present_iff_of_readAs (hmembers : codec.SingleMembers) (hdecl : decl ∈ codec.messages)
    {json : Json} {m : Message} (h : ReadAs codec decl json m) {field : Field}
    (hf : field ∈ decl.fields) (hmember : field.info.oneof.isSome = true) :
    (m.get? field.info.name).isSome = true ↔ (field.given? json).isSome = true := by
  obtain ⟨hnone, hsome⟩ := get?_of_readAs (hmembers.properties decl hdecl) h hf
  cases hgiven : field.given? json with
  | none =>
    rw [hnone hgiven, defaultOf_of_oneof (hmembers.formed decl hdecl field hf)
      (hmembers.oneofs decl hdecl field hf hmember) hmember]
    exact Iff.rfl
  | some given =>
    obtain ⟨v, -, hv⟩ := hsome given hgiven
    rw [hv]
    rfl

theorem oneOfEach_iff_of_readAs (hmembers : codec.SingleMembers) (hdecl : decl ∈ codec.messages)
    {json : Json} {m : Message} (h : ReadAs codec decl json m) :
    OneOfEach decl m ↔ OneGiven decl json := by
  refine forall₂_congr fun f hf => forall₂_congr fun g hg => ?_
  refine forall₂_congr fun hmember hsame => ?_
  rw [present_iff_of_readAs hmembers hdecl h hf hmember,
    present_iff_of_readAs hmembers hdecl h hg (hsame ▸ hmember)]

theorem forall_mem_iff_of_forall₂ {α β : Type} {R : α → β → Prop} {P : α → Prop} {Q : β → Prop}
    {as : List α} {bs : List β} (h : List.Forall₂ R as bs)
    (hiff : ∀ a ∈ as, ∀ b, R a b → (P a ↔ Q b)) : (∀ a ∈ as, P a) ↔ ∀ b ∈ bs, Q b := by
  induction h with
  | nil => simp
  | @cons a b as bs hab _ ih =>
    rw [List.forall_mem_cons] at hiff
    rw [List.forall_mem_cons, List.forall_mem_cons, hiff.1 b hab, ih hiff.2]

/-- Whether a message that is read from a document has at most one member of each oneof, at every
depth, can be told from the document. -/
def OneEachIffGiven (codec : Codec) (json : Json) : Prop :=
  ∀ decl ∈ codec.messages, ∀ m, ReadAs codec decl json m →
    (Throughout codec OneOfEach decl m ↔ OneGivenThroughout codec decl json)

theorem oneEachIffGiven_of_parts (hmembers : codec.SingleMembers) {json : Json}
    (hparts : ∀ part ∈ json.parts, OneEachIffGiven codec part ∧
      ∀ inner ∈ part.parts, OneEachIffGiven codec inner) : OneEachIffGiven codec json := by
  intro decl hdecl m hm
  rw [throughout_iff, oneGivenThroughout_iff]
  refine and_congr (oneOfEach_iff_of_readAs hmembers hdecl hm) (forall₂_congr fun field hf => ?_)
  obtain ⟨hnone, hsome⟩ := get?_of_readAs (hmembers.properties decl hdecl) hm hf
  cases hgiven : field.given? json with
  | none =>
    rw [hnone hgiven]
    refine iff_of_true (fun v hv => ?_) fun given h => ?_
    · exact within_of_messages_eq_nil (messages_of_defaultOf hv) _
    · cases h
  | some given =>
    obtain ⟨v, hcontent, hv⟩ := hsome given hgiven
    have hdocuments : ∀ document ∈ field.documents given, OneEachIffGiven codec document := by
      intro document hmem
      have hpart := hparts given (Field.mem_parts_of_given? hgiven)
      rcases Field.mem_documents hmem with rfl | hmem
      · exact hpart.1
      · exact hpart.2 document hmem
    simp only [hv, Option.some.injEq, forall_eq']
    refine forall₂_congr fun target inner => forall₂_congr fun hkind hinner => ?_
    have hread := forall₂_of_contentOfJson hmembers.properties hinner hkind
      (fun w hw => messages_of_defaultOf hw) hcontent
    refine (forall_mem_iff_of_forall₂ hread fun document hmem x hx => ?_).symm
    exact (hdocuments document hmem inner (mem_of_message hinner) x hx).symm

theorem oneEachIffGiven (hmembers : codec.SingleMembers) (json : Json) :
    OneEachIffGiven codec json := by
  -- the values of a field can be two steps down, so the parts are taken along
  have hboth : OneEachIffGiven codec json ∧ ∀ part ∈ json.parts, OneEachIffGiven codec part := by
    induction json using Json.induct with
    | step json ih =>
      exact ⟨oneEachIffGiven_of_parts hmembers ih, fun part hpart => (ih part hpart).1⟩
  exact hboth.1

/-- A message that is read from a document has the members of its oneofs that the document gives,
all of them. So there is at most one member of each oneof in it and in the messages inside it if
and only if every object that is read as one of these messages gives at most one. -/
theorem oneOfEach_iff_of_ofJson (hresolved : codec.Resolved)
    (hproperties : ∀ decl ∈ codec.messages, decl.DistinctProperties)
    (honeofs : ∀ decl ∈ codec.messages, ∀ field ∈ decl.fields,
      field.info.oneof.isSome = true → field.isSingle = true)
    {typeName : String} {json : Json} {m : Message} (h : codec.ofJson typeName json = .ok m) :
    ∃ decl, codec.message typeName = .ok decl ∧
      (∀ field ∈ decl.fields, field.info.oneof.isSome = true →
        ((m.get? field.info.name).isSome = true ↔ (field.given? json).isSome = true)) ∧
      ((∀ part x, Contains codec decl m part x → OneOfEach part x) ↔
        ∀ part rest, Describes codec decl json part rest → OneGiven part rest) := by
  have hmembers := hresolved.singleMembers hproperties honeofs
  rw [ofJson] at h
  cases hdecl : codec.message typeName with
  | error e =>
    simp only [hdecl] at h
    cases h
  | ok decl =>
    have hmem := mem_of_message hdecl
    cases hnew : codec.newMessage decl with
    | error e =>
      simp only [hdecl, hnew] at h
      cases h
    | ok start =>
      simp only [hdecl, hnew] at h
      obtain rfl := eq_fresh_of_newMessage (hproperties decl hmem) hnew
      refine ⟨decl, rfl, fun field hf hmember => ?_, oneEachIffGiven hmembers json decl hmem m h⟩
      exact present_iff_of_readAs hmembers hmem h hf hmember

/-- A tree that belongs to a person, with a branch that belongs to a club. -/
def oneOwnerEach : Json :=
  .object [("branches", .array [.object [("club", .string "7")]]), ("person", .string "x")]

theorem oneOfEach_iff_of_ofJson_grove :
    (grove .double {}).Resolved ∧ (grove .double {}).Valid ∧
      ∃ m, (grove .double {}).ofJson "grove.Tree" oneOwnerEach = .ok m ∧
        ∀ part x, Contains (grove .double {}) (groveTree .double) m part x → OneOfEach part x := by
  have hread : (grove .double {}).ofJson "grove.Tree" oneOwnerEach = .ok ⟨"grove.Tree",
      [("branches", .list [.message ⟨"grove.Tree", [("branches", .list []), ("club", .int64 7),
          ("marks", .map []), ("treeHeight", .double .zero)]⟩]),
        ("marks", .map []), ("person", .string "x"), ("treeHeight", .double .zero)]⟩ := by
    cbv
  have htree : (grove .double {}).message "grove.Tree" = .ok (groveTree .double) := by
    decide +kernel
  -- only the branches of a tree are messages, and the branch has none
  have hbranch : ∀ field ∈ (groveTree .double).fields, ∀ target,
      field.contentKind = .message target → target.fqName = "grove.Tree" ∧
        field.given? oneOwnerEach = some (.array [.object [("club", .string "7")]]) ∧
        field.documents (.array [.object [("club", .string "7")]]) =
          [.object [("club", .string "7")]] ∧
        field.given? (.object [("club", .string "7")]) = none := by
    intro field hf target hkind
    simp only [groveTree, List.mem_cons, List.not_mem_nil, or_false] at hf
    rcases hf with rfl | rfl | rfl | rfl | rfl <;> cases hkind
    exact ⟨by decide +kernel, by cbv, rfl, by cbv⟩
  have hgiven : ∀ part rest, Describes (grove .double {}) (groveTree .double) oneOwnerEach part
      rest → OneGiven part rest := by
    intro part rest hrest
    cases hrest with
    | self => decide +kernel
    | nested hf hgiven hmem hkind hinner hrest =>
      obtain ⟨hname, hbranches, hdocuments, -⟩ := hbranch _ hf _ hkind
      cases hbranches.symm.trans hgiven
      rw [hname] at hinner
      cases htree.symm.trans hinner
      rw [hdocuments, List.mem_singleton] at hmem
      subst hmem
      cases hrest with
      | self => decide +kernel
      | nested hf hgiven _ hkind _ _ =>
        obtain ⟨-, -, -, hleaf⟩ := hbranch _ hf _ hkind
        cases hleaf.symm.trans hgiven
  obtain ⟨decl, hdecl, -, hiff⟩ := oneOfEach_iff_of_ofJson resolved_grove_double
    valid_grove_double.properties valid_grove_double.oneofs hread
  cases htree.symm.trans hdecl
  exact ⟨resolved_grove_double, valid_grove_double, _, hread, hiff.2 hgiven⟩

/-- A tree that belongs to a person and to a club. -/
def twoOwners : Json := .object [("club", .string "5"), ("person", .string "x")]

/-- Where a document gives two members of a oneof, both stay. -/
theorem ofJson_twoOwners :
    (grove .double {}).Resolved ∧ (grove .double {}).Valid ∧
      ∃ m, (grove .double {}).ofJson "grove.Tree" twoOwners = .ok m ∧
        ¬ OneOfEach (groveTree .double) m := by
  have hread : (grove .double {}).ofJson "grove.Tree" twoOwners = .ok ⟨"grove.Tree",
      [("branches", .list []), ("club", .int64 5), ("marks", .map []), ("person", .string "x"),
        ("treeHeight", .double .zero)]⟩ := by
    cbv
  exact ⟨resolved_grove_double, valid_grove_double, _, hread, by decide +kernel⟩

end Codec
end ProtoStub
