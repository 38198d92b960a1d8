import ProtoStub.Proofs.Canonical
import ProtoStub.Proofs.JsonRoundTrip

/-!
# Messages read from JSON conform to their types

Whatever document a message is read from, its properties are those of its type, each of them
holds what its field can hold, and every value of an enum has a number. Little else is known:
a document gives enums by any of their names, keys of maps by any text, and as many members of
a oneof as it likes.

The proof goes along the recursion over documents. What a view promises (`JsonView.Conforming`)
it promises for the ways to read the document itself and for those to read its parts.
-/

namespace ProtoStub

/-- The documents that a document is made of. -/
def Json.parts : Json → List Json
  | array items => items
  | object members => members.map (·.2)
  | _ => []

/-- Induction over a document: what holds wherever it holds of the documents in it. -/
@[elab_as_elim] theorem Json.induct {motive : Json → Prop}
    (step : ∀ j, (∀ part ∈ j.parts, motive part) → motive j) (j : Json) : motive j :=
  step j fun part _ => Json.induct step part
termination_by sizeOf j
decreasing_by
  cases j with
  | array items =>
    have := List.sizeOf_lt_of_mem ‹part ∈ items›
    simp only [Json.array.sizeOf_spec]
    omega
  | object members =>
    obtain ⟨p, hp, rfl⟩ := List.mem_map.1 ‹_›
    have := List.sizeOf_lt_of_mem hp
    cases p
    simp only [Json.object.sizeOf_spec, Prod.mk.sizeOf_spec] at this ⊢
    omega
  | _ => exact absurd ‹_› List.not_mem_nil

/-- The values of an enum that have a number. -/
def EnumDecl.Numbered (e : EnumDecl) : EnumValue → Prop
  | .named name => (e.numberOf? name).isSome = true
  | .unknown _ => True

theorem EnumDecl.Canonical.numbered {e : EnumDecl} {v : EnumValue} (h : e.Canonical v) :
    e.Numbered v := by
  cases v with
  | unknown number => trivial
  | named name =>
    obtain ⟨number, hname⟩ := h
    obtain ⟨value, hvalue, rfl⟩ := Option.map_eq_some_iff.1 hname
    rw [EnumDecl.Numbered, EnumDecl.numberOf?, Option.isSome_map, List.find?_isSome]
    exact ⟨value, List.mem_of_find?_eq_some hvalue, decide_eq_true rfl⟩

namespace Codec

open Wire

/-- What is known of a message that was read from JSON. -/
def fromJson : Discipline := ⟨EnumDecl.Numbered, fun _ _ => True, fun _ _ => True⟩

/-- A schema of which every type has a new message. -/
structure Grounded (codec : Codec) : Prop where
  formed : ∀ decl ∈ codec.messages, ∀ field ∈ decl.fields, field.Formed
  properties : ∀ decl ∈ codec.messages, decl.DistinctProperties
  indexed : ∀ decl ∈ codec.messages, ∀ field ∈ decl.fields, codec.Indexed field.contentKind

theorem Resolved.grounded {codec : Codec} (h : codec.Resolved)
    (hproperties : ∀ decl ∈ codec.messages, decl.DistinctProperties)
    (hindexed : ∀ decl ∈ codec.messages, ∀ field ∈ decl.fields,
      codec.Indexed field.contentKind) : codec.Grounded := by
  cases h with
  | intro hbuild options =>
    exact ⟨fun decl hdecl => (formed_of_build hbuild options decl hdecl).fields, hproperties,
      hindexed⟩

variable {codec : Codec} {decl : MessageDecl}

theorem conformsTo_of_newMessage (hgrounded : codec.Grounded) (hdecl : decl ∈ codec.messages)
    {m : Message} (h : codec.newMessage decl = .ok m) : ConformsTo codec fromJson decl m := by
  have hformed := hgrounded.formed decl hdecl
  have hnames := hgrounded.properties decl hdecl
  have hindexed := hgrounded.indexed decl hdecl
  rw [newMessage_eq_of_formed hformed hnames hindexed] at h
  cases h
  have hfresh : ConformsTo codec (canonical fun _ _ => True) decl (codec.fresh decl) :=
    conformsTo_fresh_of_level hformed hnames hindexed trivial
  exact hfresh.mono (fun _ _ hv => hv.numbered) (fun _ _ _ => trivial) fun _ _ _ => trivial

/-- A message still conforms after a property is set to something that its field can hold. -/
theorem ConformsTo.setProperty (hnames : decl.DistinctProperties) {m : Message}
    (h : ConformsTo codec fromJson decl m) {field : Field} (hf : field ∈ decl.fields) {v : Value}
    (hv : Holds codec fromJson (ConformsTo codec fromJson) field v) :
    ConformsTo codec fromJson decl (m.set field.info.name v) := by
  refine .intro h.typeName (h.sorted.set _ _) trivial ?_ ?_
  · intro name w hw
    rw [Message.get?_set] at hw
    by_cases hname : field.info.name = name
    · exact ⟨field, hf, hname⟩
    · rw [if_neg hname] at hw
      exact h.declared hw
  · intro g hg w hw
    rw [Message.get?_set] at hw
    by_cases hname : field.info.name = g.info.name
    · rw [if_pos hname] at hw
      cases hw
      rwa [List.inj_on_of_nodup_map hnames hg hf hname.symm]
    · rw [if_neg hname] at hw
      exact h.holds hg hw

/-! ## Single values -/

theorem numbered_of_enumOfJson {target : TypeRef} {path : String} {json : Json} {v : EnumValue}
    (h : codec.enumOfJson target path json = .ok v) :
    Fits codec EnumDecl.Numbered (.enum target) (.enum v) := by
  cases json with
  | number n =>
    obtain ⟨number, -, hnumber⟩ := Except.exists_of_bind h
    obtain ⟨e, he, -⟩ := Except.exists_of_bind hnumber
    exact .enum he (canonical_of_enumOfNumber he hnumber).numbered
  | string name =>
    obtain ⟨e, he, hname⟩ := Except.exists_of_bind h
    cases hnumber : e.numberOf? name with
    | none =>
      rw [hnumber] at hname
      cases hname
    | some number =>
      rw [hnumber] at hname
      cases hname
      exact .enum he (by rw [EnumDecl.Numbered, hnumber]; rfl)
  | null | bool b | array items | object members => cases h

theorem fits_of_scalarOfJson {kind : FieldKind} {path : String} {json : Json} {v : Value}
    (h : codec.scalarOfJson kind path json = .ok v) : Fits codec EnumDecl.Numbered kind v := by
  cases kind with
  | message target | group => cases h
  | enum target =>
    obtain ⟨e, he, rfl⟩ := exists_of_map_eq_ok h
    exact numbered_of_enumOfJson he
  | _ =>
    obtain ⟨x, -, rfl⟩ := exists_of_map_eq_ok h
    constructor

/-! ## Views -/

/-- A way to read single values that only gives values of the right kinds. -/
def ReadsConforming (codec : Codec) (read : FieldKind → String → Except Error Value) : Prop :=
  ∀ kind path v, read kind path = .ok v →
    Conforms codec fromJson (ConformsTo codec fromJson) kind v

/-- What is read through a view conforms, of the document as well as of its parts. -/
structure JsonView.Conforming (codec : Codec) (view : JsonView) : Prop where
  message : ∀ decl ∈ codec.messages, ∀ s m, ConformsTo codec fromJson decl s →
    view.message decl s = .ok m → ConformsTo codec fromJson decl m
  items : ∀ read ∈ view.items, ReadsConforming codec read
  members : ∀ p ∈ view.members, ReadsConforming codec p.2

theorem JsonView.Conforming.value (hgrounded : codec.Grounded) {view : JsonView}
    (h : view.Conforming codec) : ReadsConforming codec (view.value codec) := by
  intro kind path v hv
  cases kind with
  | message target =>
    obtain ⟨decl, hdecl, hv⟩ := Except.exists_of_bind hv
    obtain ⟨start, hstart, hv⟩ := Except.exists_of_bind hv
    obtain ⟨m, hm, rfl⟩ := exists_of_map_eq_ok hv
    have hmem := mem_of_message hdecl
    exact .message hdecl (h.message decl hmem start m
      (conformsTo_of_newMessage hgrounded hmem hstart) hm)
  | group => cases hv
  | _ => exact .scalar (fits_of_scalarOfJson hv)

theorem conforms_of_itemsOfJson {kind : FieldKind} {path : String}
    {reads : List (FieldKind → String → Except Error Value)}
    (hreads : ∀ read ∈ reads, ReadsConforming codec read) {items : List Value}
    (h : itemsOfJson kind path reads = .ok items) :
    ∀ v ∈ items, Conforms codec fromJson (ConformsTo codec fromJson) kind v := by
  induction reads generalizing items with
  | nil =>
    cases h
    exact fun v hv => absurd hv List.not_mem_nil
  | cons read rest ih =>
    rw [List.forall_mem_cons] at hreads
    rw [itemsOfJson] at h
    cases hfirst : read kind path with
    | error e =>
      rw [hfirst] at h
      cases h
    | ok first =>
      rw [hfirst] at h
      obtain ⟨more, hmore, rfl⟩ := exists_of_map_eq_ok h
      rw [List.forall_mem_cons]
      exact ⟨hreads.1 kind path first hfirst, ih hreads.2 hmore⟩

theorem conforms_of_entriesOfJson {kind : FieldKind} {path : String}
    {reads : List (String × (FieldKind → String → Except Error Value))}
    (hreads : ∀ p ∈ reads, ReadsConforming codec p.2) {before entries : KeyMap Value}
    (hsorted : KeyMap.Sorted before)
    (hbefore : ∀ p ∈ before, Conforms codec fromJson (ConformsTo codec fromJson) kind p.2)
    (h : entriesOfJson kind path before reads = .ok entries) :
    KeyMap.Sorted entries ∧
      ∀ p ∈ entries, Conforms codec fromJson (ConformsTo codec fromJson) kind p.2 := by
  induction reads generalizing before with
  | nil =>
    cases h
    exact ⟨hsorted, hbefore⟩
  | cons first rest ih =>
    obtain ⟨key, read⟩ := first
    rw [List.forall_mem_cons] at hreads
    rw [entriesOfJson] at h
    cases hvalue : read kind path with
    | error e =>
      rw [hvalue] at h
      cases h
    | ok value =>
      rw [hvalue] at h
      refine ih hreads.2 (hsorted.insert key value) ?_ h
      intro p hp
      rcases KeyMap.mem_insert hp with rfl | hp
      · exact hreads.1 kind path value hvalue
      · exact hbefore p hp

/-! ## Fields -/

/-- A single value is read anew unless a message is read into the one that is there. -/
theorem contentOfJson_single_cases {info : FieldInfo} (hsingle : info.repeated = false)
    {path : String} {old : Option Value} {view : JsonView} {v : Value}
    (h : codec.contentOfJson (.plain info) path old view = .ok v) :
    view.value codec info.kind path = .ok v ∨
      ∃ target inner start m, info.kind = .message target ∧ old = some (.message start) ∧
        codec.message target.fqName = .ok inner ∧ view.message inner start = .ok m ∧
        v = .message m := by
  simp only [contentOfJson, hsingle, Bool.false_eq_true, if_false] at h
  split at h
  next target start hkind =>
    obtain ⟨inner, hinner, h⟩ := Except.exists_of_bind h
    obtain ⟨m, hm, rfl⟩ := exists_of_map_eq_ok h
    exact .inr ⟨target, inner, start, m, hkind, rfl, hinner, hm, rfl⟩
  · exact .inl h

theorem holds_of_contentOfJson (hgrounded : codec.Grounded) {field : Field} {path : String}
    {old : Option Value}
    (hold : ∀ w, old = some w → Holds codec fromJson (ConformsTo codec fromJson) field w)
    {view : JsonView} (hview : view.Conforming codec) {v : Value}
    (h : codec.contentOfJson field path old view = .ok v) :
    Holds codec fromJson (ConformsTo codec fromJson) field v := by
  cases field with
  | map info key value =>
    cases hjson : view.json with
    | object members =>
      simp only [contentOfJson, hjson] at h
      obtain ⟨entries, hentries, rfl⟩ := exists_of_map_eq_ok h
      obtain ⟨hsorted, hvalues⟩ := conforms_of_entriesOfJson hview.members KeyMap.sorted_nil
        (fun p hp => absurd hp List.not_mem_nil) hentries
      exact .map hsorted (fun _ _ => trivial) hvalues
    | _ =>
      simp only [contentOfJson, hjson] at h
      cases h
  | plain info =>
    cases hrep : info.repeated with
    | true =>
      cases hjson : view.json with
      | array items =>
        simp only [contentOfJson, hrep, if_true, hjson] at h
        obtain ⟨items, hitems, rfl⟩ := exists_of_map_eq_ok h
        exact .list hrep (conforms_of_itemsOfJson hview.items hitems)
      | _ =>
        simp only [contentOfJson, hrep, if_true, hjson] at h
        cases h
    | false =>
      apply Holds.single hrep
      rcases contentOfJson_single_cases hrep h with hv | ⟨target, inner, start, m, hkind, rfl,
        hinner, hm, rfl⟩
      · exact hview.value hgrounded _ _ _ hv
      · -- What is there is a message of the same type.
        have hstart : ConformsTo codec fromJson inner start := by
          cases hold _ rfl with
          | single _ hv =>
            rw [hkind] at hv
            exact hv.nested hinner
        rw [hkind]
        exact .message hinner (hview.message inner (mem_of_message hinner) start m hstart hm)

theorem mem_of_firstPresent? {views : List (String × JsonView)} {names : List String}
    {view : JsonView} (h : firstPresent? views names = some view) : ∃ p ∈ views, p.2 = view := by
  obtain ⟨name, -, hname⟩ := List.mem_filterMap.1 (List.mem_of_find?_eq_some h)
  exact ⟨(name, view), KeyMap.mem_of_find? hname, rfl⟩

/-- Reading some fields from the members of an object keeps a message conforming. -/
theorem conformsTo_of_fieldsOfJson (hgrounded : codec.Grounded) (hdecl : decl ∈ codec.messages)
    {views : List (String × JsonView)} (hviews : ∀ p ∈ views, p.2.Conforming codec)
    {fields : List Field} (hsub : ∀ field ∈ fields, field ∈ decl.fields) {s m : Message}
    (hs : ConformsTo codec fromJson decl s) (h : codec.fieldsOfJson decl views fields s = .ok m) :
    ConformsTo codec fromJson decl m := by
  induction fields generalizing s with
  | nil =>
    cases h
    exact hs
  | cons field rest ih =>
    rw [List.forall_mem_cons] at hsub
    rw [fieldsOfJson] at h
    cases hfound : firstPresent? views field.info.readNames with
    | none =>
      rw [hfound] at h
      exact ih hsub.2 hs h
    | some view =>
      rw [hfound] at h
      obtain ⟨p, hp, rfl⟩ := mem_of_firstPresent? hfound
      cases hcontent : codec.contentOfJson field (fieldPath decl field.info)
          (s.get? field.info.name) p.2 with
      | error e =>
        simp only [hcontent] at h
        cases h
      | ok v =>
        simp only [hcontent] at h
        apply ih hsub.2 _ h
        apply hs.setProperty (hgrounded.properties decl hdecl) hsub.1
        exact holds_of_contentOfJson hgrounded (fun w hw => hs.holds hsub.1 hw) (hviews p hp)
          hcontent

/-! ## Documents -/

-- The induction is on the document; what is shown of a view takes in how its parts are read, so
-- that the step of an object needs no more than the views of its members.

/-- A document without parts cannot be read as a message. -/
theorem conforming_of_refuseMessage (json : Json) :
    JsonView.Conforming codec ⟨json, refuseMessage, [], []⟩ := by
  constructor
  · intro decl _ s m _ h
    cases h
  · exact fun read hread => absurd hread List.not_mem_nil
  · exact fun p hp => absurd hp List.not_mem_nil

mutual

theorem conforming_jsonView (hgrounded : codec.Grounded) :
    ∀ json, (codec.jsonView json).Conforming codec
  | .object members => by
    have hviews := conforming_memberViews hgrounded members
    constructor
    · intro decl hdecl s m hs h
      exact conformsTo_of_fieldsOfJson hgrounded hdecl hviews (fun _ hf => hf) hs h
    · exact fun read hread => absurd hread List.not_mem_nil
    · intro p hp
      obtain ⟨q, hq, rfl⟩ := List.mem_map.1 hp
      exact (hviews q hq).value hgrounded
  | .array items => by
    have hviews := conforming_itemViews hgrounded items
    constructor
    · intro decl _ s m _ h
      cases h
    · intro read hread
      obtain ⟨view, hview, rfl⟩ := List.mem_map.1 hread
      exact (hviews view hview).value hgrounded
    · exact fun p hp => absurd hp List.not_mem_nil
  | .null => conforming_of_refuseMessage _
  | .bool _ => conforming_of_refuseMessage _
  | .number _ => conforming_of_refuseMessage _
  | .string _ => conforming_of_refuseMessage _

theorem conforming_itemViews (hgrounded : codec.Grounded) :
    ∀ items, ∀ view ∈ codec.itemViews items, view.Conforming codec
  | [], _, h => absurd h List.not_mem_nil
  | json :: rest, view, h => by
    rcases List.mem_cons.1 h with rfl | h
    · exact conforming_jsonView hgrounded json
    · exact conforming_itemViews hgrounded rest view h

theorem conforming_memberViews (hgrounded : codec.Grounded) :
    ∀ members, ∀ p ∈ codec.memberViews members, p.2.Conforming codec
  | [], _, h => absurd h List.not_mem_nil
  | (name, json) :: rest, p, h => by
    rcases List.mem_cons.1 h with rfl | h
    · exact conforming_jsonView hgrounded json
    · exact conforming_memberViews hgrounded rest p h

end

/-- A message that was read from JSON conforms to its type. -/
theorem conformsTo_of_ofJson (hgrounded : codec.Grounded) {typeName : String} {json : Json}
    {m : Message} (htype : codec.message typeName = .ok decl)
    (h : codec.ofJson typeName json = .ok m) : ConformsTo codec fromJson decl m := by
  have hdecl := mem_of_message htype
  simp only [ofJson, htype] at h
  cases hstart : codec.newMessage decl with
  | error e =>
    rw [hstart] at h
    cases h
  | ok start =>
    rw [hstart] at h
    exact (conforming_jsonView hgrounded json).message decl hdecl start m
      (conformsTo_of_newMessage hgrounded hdecl hstart) h

end Codec
end ProtoStub
