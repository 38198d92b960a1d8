import ProtoStub.Proofs.DeclaredTypes
import ProtoStub.Proofs.JsonReading

/-!
# Faults of what is read

A codec looks types up by name, takes zeros of kinds and defaults of fields, and has an error at
hand for each of these that might not be there. It relies on well-formed fields and on knowing
every type that they refer to (`Codec.Closed`). Where it can, none of these errors comes up:
reading bytes or a document fails only by a fault of what is read (`OnlyDataFaults`).

Every function on the way is gone through once. Runs over bytes go by induction on what is left of
them, documents by induction on their parts.
-/

namespace ProtoStub

/-! ## Faults of data -/

/-- Whether an error is a fault of bytes, documents or messages. -/
def Error.isDataFault : Error → Bool
  | wireFormat _ _ | varint _ | fieldNumber _ | jsonText | invalidValue _ _ => true
  | _ => false

/-- A result that is an error only by a fault of the data. -/
def OnlyDataFaults {α : Type} (x : Except Error α) : Prop :=
  ∀ e, x = .error e → e.isDataFault = true

namespace OnlyDataFaults

variable {α β : Type} {x : Except Error α}

theorem ok (a : α) : OnlyDataFaults (.ok a) := by
  rintro _ ⟨⟩

theorem error {e : Error} (h : e.isDataFault = true) :
    OnlyDataFaults (.error e : Except Error α) := by
  rintro _ ⟨⟩
  exact h

theorem error_of_eq (hx : OnlyDataFaults x) {e : Error} (h : x = .error e) :
    OnlyDataFaults (.error e : Except Error β) :=
  error (hx e h)

theorem bind {f : α → Except Error β} (hx : OnlyDataFaults x)
    (hf : ∀ a, x = .ok a → OnlyDataFaults (f a)) : OnlyDataFaults (x >>= f) := by
  cases x with
  | error e => exact hx.error_of_eq rfl
  | ok a => exact hf a rfl

theorem map (hx : OnlyDataFaults x) (f : α → β) : OnlyDataFaults (f <$> x) := by
  cases x with
  | error e => exact hx.error_of_eq rfl
  | ok a => exact ok (f a)

end OnlyDataFaults

namespace Wire

/-! ## Bytes -/

namespace Cursor

theorem onlyDataFaults_varint (c : Cursor) : OnlyDataFaults c.varint := by
  unfold varint
  split
  · exact .error rfl
  · exact .ok _

theorem onlyDataFaults_word (c : Cursor) (count : Nat) (what : String) :
    OnlyDataFaults (c.word count what) := by
  unfold word
  split
  · exact .error rfl
  · exact .ok _

theorem onlyDataFaults_body (c : Cursor) : OnlyDataFaults c.body := by
  unfold body
  split
  · exact .error rfl
  · split
    · exact .ok _
    · exact .error rfl

end Cursor

theorem onlyDataFaults_splitTag (tag : UInt64) : OnlyDataFaults (splitTag tag) := by
  refine OnlyDataFaults.bind ?_ fun wireType _ => ?_
  · unfold WireType.ofCode
    split
    all_goals first | exact .ok _ | exact .error rfl
  · simp only
    split
    · exact .error rfl
    · exact .ok _

theorem onlyDataFaults_skipValue (wireType : WireType) (position : Nat) (c : Cursor) :
    OnlyDataFaults (skipValue wireType position c) := by
  unfold skipValue
  repeat' split
  all_goals first | exact .ok _ | exact .error rfl

theorem onlyDataFaults_skipRecord (origin : Nat) (c : Cursor) :
    OnlyDataFaults (skipRecord origin c) := by
  unfold skipRecord
  split
  · exact .error rfl
  split
  · exact .error rfl
  next tag rest _ =>
    split
    next e he => exact (onlyDataFaults_splitTag tag).error_of_eq he
    next number wireType _ =>
      split
      next e he => exact (onlyDataFaults_skipValue wireType _ rest).error_of_eq he
      · exact .ok _

theorem onlyDataFaults_skipGroups (origin : Nat) (number : UInt32) (depth : Nat) (c : Cursor) :
    OnlyDataFaults (skipGroups origin number depth c) := by
  fun_induction skipGroups origin number depth c with
  | case1 c => exact .ok c
  | case2 => exact .error rfl
  | case3 => exact .error rfl
  | case4 => exact (onlyDataFaults_splitTag _).error_of_eq ‹_›
  | case5 => exact (onlyDataFaults_skipRecord origin _).error_of_eq ‹_›
  | case6 => assumption

theorem onlyDataFaults_skipUnknown (number : UInt32) (wireType : WireType) (c : Cursor) :
    OnlyDataFaults (skipUnknown number wireType c) := by
  unfold skipUnknown
  split
  next e he => exact (onlyDataFaults_skipRecord c.offset c).error_of_eq he
  next rest _ =>
    split
    · exact onlyDataFaults_skipGroups c.offset number 1 rest
    · exact .ok rest

end Wire

namespace Codec

open Wire

/-! ## Closed codecs -/

/-- A kind of which a codec can have values: no group, and no type that it does not know. -/
structure Supports (codec : Codec) (kind : FieldKind) : Prop where
  noGroup : kind ≠ .group
  indexed : codec.Indexed kind

/-- A codec with well-formed fields that knows every type they refer to. -/
structure Closed (codec : Codec) : Prop where
  formed : ∀ decl ∈ codec.messages, ∀ field ∈ decl.fields, field.Formed
  indexed : ∀ decl ∈ codec.messages, ∀ field ∈ decl.fields, ∀ kind ∈ field.kinds,
    codec.Indexed kind

variable {codec : Codec} {decl : MessageDecl}

theorem contentKind_mem_kinds (field : Field) : field.contentKind ∈ field.kinds := by
  cases field with
  | plain info => exact List.mem_singleton_self _
  | map info key value =>
    refine List.mem_cons_of_mem _ (List.mem_append_right _ ?_)
    cases value <;> exact List.mem_cons_self

namespace Closed

variable (hclosed : codec.Closed) (hdecl : decl ∈ codec.messages)

include hclosed hdecl

theorem supports {field : Field} (hf : field ∈ decl.fields) :
    codec.Supports field.contentKind := by
  refine ⟨?_, hclosed.indexed decl hdecl field hf _ (contentKind_mem_kinds field)⟩
  cases hclosed.formed decl hdecl field hf with
  | plain _ hkind => exact hkind
  | map _ _ _ _ _ _ _ hkind => exact hkind

/-- Every type has a new message. -/
theorem exists_newMessage : ∃ m, codec.newMessage decl = .ok m := by
  have hdefaults : ∀ fields : List Field, (∀ field ∈ fields, field ∈ decl.fields) →
      ∀ m, ∃ m', codec.setDefaults fields m = .ok m' := by
    intro fields hsub
    induction fields with
    | nil => exact fun m => ⟨m, rfl⟩
    | cons field rest ih =>
      rw [List.forall_mem_cons] at hsub
      intro m
      rw [setDefaults, defaultValue_eq (hclosed.formed decl hdecl field hsub.1)
        (hclosed.supports hdecl hsub.1).indexed]
      exact ih hsub.2 _
  exact hdefaults decl.fields (fun _ hf => hf) _

end Closed

theorem Closed.exists_create (hclosed : codec.Closed) {name : String}
    (h : codec.message name = .ok decl) : ∃ m, codec.create name = .ok m := by
  obtain ⟨m, hm⟩ := hclosed.exists_newMessage (mem_of_message h)
  refine ⟨m, ?_⟩
  rw [create, h]
  exact hm

/-! ## Reading bytes -/

theorem onlyDataFaults_enumOfNumber {target : TypeRef} (h : codec.Indexed (.enum target))
    (number : Int32) : OnlyDataFaults (codec.enumOfNumber target.fqName number) := by
  obtain ⟨e, he⟩ := h
  rw [enumOfNumber_eq he]
  exact .ok _

theorem onlyDataFaults_readScalar {kind : FieldKind} (h : codec.Supports kind)
    (hmessage : ∀ target, kind ≠ .message target) (path : String) (c : Cursor) :
    OnlyDataFaults (codec.readScalar kind path c) := by
  cases kind with
  | group => exact absurd rfl h.noGroup
  | message target => exact absurd rfl (hmessage target)
  | enum target =>
    rw [readScalar]
    split
    next e he => exact c.onlyDataFaults_varint.error_of_eq he
    · exact (onlyDataFaults_enumOfNumber h.indexed _).map _
  | string =>
    rw [readScalar]
    split
    next e he => exact c.onlyDataFaults_body.error_of_eq he
    · split
      · exact .error rfl
      · exact .ok _
  | bytes => exact c.onlyDataFaults_body.map _
  | double | fixed64 | sfixed64 => exact ((c.onlyDataFaults_word 8 "I64").map _).map _
  | float | fixed32 | sfixed32 => exact ((c.onlyDataFaults_word 4 "I32").map _).map _
  | _ => exact c.onlyDataFaults_varint.map _

theorem onlyDataFaults_readPacked {kind : FieldKind} (h : codec.Supports kind)
    (hmessage : ∀ target, kind ≠ .message target) (path : String) (c : Cursor) :
    OnlyDataFaults (codec.readPacked kind path c) := by
  fun_induction readPacked codec kind path c with
  | case1 => exact .ok []
  | case2 c _ e he => exact (onlyDataFaults_readScalar h hmessage path c).error_of_eq he
  | case3 c _ v rest _ _ ih => exact ih.map _

/-- What the records of a field hold is something that the codec knows. -/
def Form.Known (codec : Codec) : Form → Prop
  | .scalar kind _ => codec.Supports kind ∧ ∀ target, kind ≠ .message target
  | .nested (.message target _) => codec.Supports (.message target)
  | .nested (.entry key value) => key.kind.isMapKey = true ∧ codec.Supports value.kind ∧
      value.initial = value.kind.initialValue

/-- All forms of some slots are known. -/
def Slots.Known (codec : Codec) (slots : Slots) : Prop :=
  ∀ number slot, slots number = some slot → slot.form.Known codec

theorem Form.known_ofKind {kind : FieldKind} (h : codec.Supports kind) (repeated : Bool) :
    (Form.ofKind kind repeated).Known codec := by
  unfold Form.ofKind
  split
  · exact h
  next hmessage => exact ⟨h, hmessage⟩

theorem supports_of_isMapKey {kind : FieldKind} (h : kind.isMapKey = true) :
    codec.Supports kind := by
  cases kind with
  | double | float | bytes | enum target | message target | group => cases h
  | _ => exact ⟨nofun, trivial⟩

theorem Slots.known_entrySlots {key value : FieldInfo} (hkey : key.kind.isMapKey = true)
    (hvalue : codec.Supports value.kind) (path : String) :
    Slots.Known codec (entrySlots path key value) := by
  intro number slot h
  rcases entrySlots_eq_some h with rfl | rfl
  · exact Form.known_ofKind (supports_of_isMapKey hkey) false
  · exact Form.known_ofKind hvalue false

theorem Closed.known_slotsOf (hclosed : codec.Closed) (hdecl : decl ∈ codec.messages) :
    Slots.Known codec (slotsOf decl) := by
  intro number slot h
  obtain ⟨field, hfield, rfl⟩ := Option.map_eq_some_iff.1 h
  have hf : field ∈ decl.fields := List.mem_of_find?_eq_some hfield
  have hsupports := hclosed.supports hdecl hf
  cases hclosed.formed decl hdecl field hf with
  | plain => exact Form.known_ofKind hsupports _
  | map _ _ _ _ hkey _ _ _ hinitial => exact ⟨hkey, hsupports, hinitial⟩

theorem onlyDataFaults_readSlot {slot : Slot} (h : slot.form.Known codec) (wireType : WireType)
    (c : Cursor) : OnlyDataFaults (codec.readSlot slot wireType c) := by
  unfold readSlot
  split
  · split
    · exact c.onlyDataFaults_body.map _
    · exact .error rfl
  next kind repeated hform =>
    rw [hform] at h
    split
    · split
      next e he => exact c.onlyDataFaults_body.error_of_eq he
      next body rest _ => exact (onlyDataFaults_readPacked h.1 h.2 slot.path body).map _
    · split
      · exact (onlyDataFaults_readScalar h.1 h.2 slot.path c).map _
      · exact .error rfl

theorem onlyDataFaults_readRecord {slots : Slots} (h : Slots.Known codec slots) (c : Cursor) :
    OnlyDataFaults (codec.readRecord slots c) := by
  unfold readRecord
  split
  next e he => exact c.onlyDataFaults_varint.error_of_eq he
  next tag rest _ =>
    split
    next e he => exact (onlyDataFaults_splitTag tag).error_of_eq he
    next number wireType _ =>
      split
      · exact (onlyDataFaults_skipUnknown number wireType c).map _
      next slot hslot => exact onlyDataFaults_readSlot (h number slot hslot) wireType rest

/-- Where a nested body is read into is always there. -/
theorem Closed.exists_openNested (hclosed : codec.Closed) {nested : Nested}
    (h : (Form.nested nested).Known codec) (path : String) (old : Option Value) :
    ∃ slots start, codec.openNested path nested old = .ok (slots, start) ∧
      Slots.Known codec slots := by
  cases nested with
  | message target repeated =>
    obtain ⟨decl, hdecl⟩ := h.indexed
    have hmem := mem_of_message hdecl
    have hknown := hclosed.known_slotsOf hmem
    obtain ⟨start, hstart⟩ := hclosed.exists_newMessage hmem
    simp only [openNested, hdecl]
    split
    next m => exact ⟨slotsOf decl, m, rfl, hknown⟩
    · exact ⟨slotsOf decl, start, by rw [hstart]; rfl, hknown⟩
  | entry key value =>
    obtain ⟨hkey, hvalue, hinitial⟩ := h
    have hknown := Slots.known_entrySlots hkey hvalue path
    obtain ⟨k, hk, -⟩ := exists_zeroOf_key codec EnumDecl.Canonical hkey
    cases hmessage : value.hasMessageKind with
    | false =>
      obtain ⟨v, hv, -⟩ := exists_zero hvalue.noGroup hmessage hinitial hvalue.indexed
      refine ⟨entrySlots path key value, ⟨"", [(keyName, k), (valueName, v)]⟩, ?_, hknown⟩
      simp only [openNested, hk, hv, bind, Except.bind]
      split
      next target _ htarget =>
        rw [FieldInfo.hasMessageKind, htarget] at hmessage
        cases hmessage
      next heq _ =>
        cases heq
        rfl
      next heq _ => cases heq
    | true =>
      rw [FieldInfo.hasMessageKind] at hmessage
      split at hmessage
      next target htarget =>
        rw [htarget] at hvalue
        obtain ⟨decl, hdecl⟩ := hvalue.indexed
        obtain ⟨v, hv⟩ := hclosed.exists_create hdecl
        have hnone : codec.defaultValue value = .ok none := by
          rw [defaultValue, hinitial, htarget]
          rfl
        refine ⟨entrySlots path key value, ⟨"", [(keyName, k), (valueName, .message v)]⟩, ?_,
          hknown⟩
        simp only [openNested, hk, hnone, hv, htarget, bind, Except.bind]
        rfl
      · cases hmessage

theorem Closed.onlyDataFaults_enter (hclosed : codec.Closed) {slots : Slots}
    (hknown : Slots.Known codec slots) {occurrence : Occurrence} (h : Reads codec slots occurrence)
    (hcontent : ∀ slot nested content, occurrence = .body slot nested content →
      ∀ slots, Slots.Known codec slots → ∀ start,
        OnlyDataFaults (codec.decodeInto slots content start)) (m : Message) :
    OnlyDataFaults (codec.enter m occurrence) := by
  cases h with
  | unknown => exact .ok m
  | scalars => exact .ok _
  | @body number slot nested content hslot hform =>
    have hform' := hknown number slot hslot
    rw [hform] at hform'
    obtain ⟨inner, start, hopen, hinner⟩ :=
      hclosed.exists_openNested hform' slot.path (m.get? slot.name)
    simp only [enter, hopen]
    split
    next e he => exact (hcontent slot nested content rfl inner hinner start).error_of_eq he
    · exact .ok _

/-- A run over bytes fails only by a fault of the bytes. -/
theorem Closed.onlyDataFaults_decodeInto (hclosed : codec.Closed) {slots : Slots}
    (hknown : Slots.Known codec slots) (c : Cursor) (m : Message) :
    OnlyDataFaults (codec.decodeInto slots c m) := by
  induction hn : c.size using Nat.strongRecOn generalizing slots c m with
  | _ n ih =>
    subst hn
    by_cases hb : c.bytes = []
    · rw [decodeInto_nil codec slots m hb]
      exact .ok m
    · rw [decodeInto_eq codec slots m hb]
      split
      next e he => exact (onlyDataFaults_readRecord hknown c).error_of_eq he
      next occurrence rest hr =>
        obtain ⟨hmoved, hshorter⟩ := readRecord_moved hr
        have henter : OnlyDataFaults (codec.enter m occurrence) := by
          refine hclosed.onlyDataFaults_enter hknown (reads_of_readRecord hr) ?_ m
          rintro slot nested content rfl slots hslots start
          exact ih _ hshorter hslots content start rfl
        split
        next e he => exact henter.error_of_eq he
        next entered _ => exact ih _ hmoved.size_lt hknown rest entered rfl

theorem Closed.onlyDataFaults_decode (hclosed : codec.Closed) {typeName : String}
    (htype : codec.message typeName = .ok decl) (bytes : List UInt8) :
    OnlyDataFaults (codec.decode typeName bytes) := by
  have hdecl := mem_of_message htype
  obtain ⟨start, hstart⟩ := hclosed.exists_newMessage hdecl
  simp only [decode, htype, hstart]
  exact hclosed.onlyDataFaults_decodeInto (hclosed.known_slotsOf hdecl) _ start

/-! ## Reading documents -/

theorem onlyDataFaults_expect {α : Type} (path expected : String) (json : Json) (a : Option α) :
    OnlyDataFaults (expect path expected json a) := by
  cases a with
  | none => exact .error rfl
  | some a => exact .ok a

theorem onlyDataFaults_enumOfJson {target : TypeRef} (h : codec.Indexed (.enum target))
    (path : String) (json : Json) : OnlyDataFaults (codec.enumOfJson target path json) := by
  cases json with
  | number n =>
    exact (onlyDataFaults_expect _ _ _ _).bind fun number _ => onlyDataFaults_enumOfNumber h number
  | string name =>
    obtain ⟨e, he⟩ := h
    simp only [enumOfJson, he]
    refine OnlyDataFaults.bind (.ok e) fun e _ => ?_
    split
    · exact .ok _
    · exact .error rfl
  | null | bool b | array items | object members => exact .error rfl

theorem onlyDataFaults_bytesOfJson (path : String) (json : Json) :
    OnlyDataFaults (bytesOfJson path json) := by
  unfold bytesOfJson
  split
  · split
    · exact .ok _
    · exact .error rfl
  · exact .error rfl

theorem onlyDataFaults_scalarOfJson {kind : FieldKind} (h : codec.Supports kind)
    (hmessage : ∀ target, kind ≠ .message target) (path : String) (json : Json) :
    OnlyDataFaults (codec.scalarOfJson kind path json) := by
  cases kind with
  | group => exact absurd rfl h.noGroup
  | message target => exact absurd rfl (hmessage target)
  | enum target => exact (onlyDataFaults_enumOfJson h.indexed path json).map _
  | bytes => exact (onlyDataFaults_bytesOfJson path json).map _
  | _ => exact (onlyDataFaults_expect _ _ _ _).map _

/-- A way to read or write single values that fails only by a fault of the data where the kind
is one that the codec supports. -/
def Steady {α : Type} (codec : Codec) (f : FieldKind → String → Except Error α) : Prop :=
  ∀ kind path, codec.Supports kind → OnlyDataFaults (f kind path)

/-- A document of which the document itself and all its parts are read without any fault but those
of the data. -/
structure JsonView.Steady (codec : Codec) (view : JsonView) : Prop where
  message : ∀ decl ∈ codec.messages, ∀ m, OnlyDataFaults (view.message decl m)
  items : ∀ read ∈ view.items, codec.Steady read
  members : ∀ p ∈ view.members, codec.Steady p.2

theorem JsonView.Steady.value (hclosed : codec.Closed) {view : JsonView} (h : view.Steady codec) :
    codec.Steady (view.value codec) := by
  intro kind path hkind
  unfold JsonView.value
  split
  next target =>
    obtain ⟨decl, hdecl⟩ := hkind.indexed
    have hmem := mem_of_message hdecl
    obtain ⟨start, hstart⟩ := hclosed.exists_newMessage hmem
    rw [hdecl]
    refine OnlyDataFaults.bind (.ok decl) fun d hd => ?_
    cases hd
    rw [hstart]
    exact (h.message decl hmem start).map _
  next hmessage => exact onlyDataFaults_scalarOfJson hkind hmessage path view.json

theorem onlyDataFaults_itemsOfJson {kind : FieldKind} (hkind : codec.Supports kind) (path : String)
    {reads : List (FieldKind → String → Except Error Value)}
    (h : ∀ read ∈ reads, codec.Steady read) : OnlyDataFaults (itemsOfJson kind path reads) := by
  induction reads with
  | nil => exact .ok []
  | cons read rest ih =>
    rw [List.forall_mem_cons] at h
    rw [itemsOfJson]
    split
    next e he => exact (h.1 kind path hkind).error_of_eq he
    · exact (ih h.2).map _

theorem onlyDataFaults_entriesOfJson {kind : FieldKind} (hkind : codec.Supports kind)
    (path : String) {reads : List (String × (FieldKind → String → Except Error Value))}
    (h : ∀ p ∈ reads, codec.Steady p.2) (entries : KeyMap Value) :
    OnlyDataFaults (entriesOfJson kind path entries reads) := by
  induction reads generalizing entries with
  | nil => exact .ok entries
  | cons p rest ih =>
    obtain ⟨key, read⟩ := p
    rw [List.forall_mem_cons] at h
    rw [entriesOfJson]
    split
    next e he => exact (h.1 kind path hkind).error_of_eq he
    · exact ih h.2 _

theorem onlyDataFaults_contentOfJson (hclosed : codec.Closed) {field : Field}
    (hkind : codec.Supports field.contentKind) (path : String) (old : Option Value)
    {view : JsonView} (h : view.Steady codec) :
    OnlyDataFaults (codec.contentOfJson field path old view) := by
  unfold contentOfJson
  split
  · split
    · exact (onlyDataFaults_entriesOfJson hkind path h.members _).map _
    · exact .error rfl
  · split
    · split
      · exact (onlyDataFaults_itemsOfJson hkind path h.items).map _
      · exact .error rfl
    · split
      next target m htarget =>
        rw [Field.contentKind, htarget] at hkind
        obtain ⟨decl, hdecl⟩ := hkind.indexed
        rw [hdecl]
        exact (h.message decl (mem_of_message hdecl) m).map _
      · exact h.value hclosed _ path hkind

theorem onlyDataFaults_fieldsOfJson (hclosed : codec.Closed) (hdecl : decl ∈ codec.messages)
    {views : List (String × JsonView)} (hviews : ∀ p ∈ views, p.2.Steady codec)
    {fields : List Field} (hsub : ∀ field ∈ fields, field ∈ decl.fields) (m : Message) :
    OnlyDataFaults (codec.fieldsOfJson decl views fields m) := by
  induction fields generalizing m with
  | nil => exact .ok m
  | cons field rest ih =>
    rw [List.forall_mem_cons] at hsub
    rw [fieldsOfJson]
    split
    · exact ih hsub.2 m
    next view hfound =>
      obtain ⟨p, hp, rfl⟩ := mem_of_firstPresent? hfound
      have hcontent := onlyDataFaults_contentOfJson hclosed (hclosed.supports hdecl hsub.1)
        (fieldPath decl field.info) (m.get? field.info.name) (hviews p hp)
      split
      next e he => exact hcontent.error_of_eq he
      · exact ih hsub.2 _

theorem Closed.steady_jsonView (hclosed : codec.Closed) (json : Json) :
    (codec.jsonView json).Steady codec := by
  refine Json.induct (fun json ih => ?_) json
  have hrefused : ∀ json, JsonView.Steady codec ⟨json, refuseMessage, [], []⟩ := by
    intro json
    exact ⟨fun _ _ _ => .error rfl, by simp, by simp⟩
  cases json with
  | object members =>
    have hviews : ∀ p ∈ codec.memberViews members, p.2.Steady codec := by
      rw [memberViews_eq_map]
      intro p hp
      obtain ⟨q, hq, rfl⟩ := List.mem_map.1 hp
      exact ih q.2 (List.mem_map_of_mem hq)
    refine ⟨fun decl hdecl m => ?_, by simp [jsonView], fun p hp => ?_⟩
    · exact onlyDataFaults_fieldsOfJson hclosed hdecl hviews (fun _ hf => hf) m
    · obtain ⟨q, hq, rfl⟩ := List.mem_map.1 hp
      exact (hviews q hq).value hclosed
  | array items =>
    refine ⟨fun _ _ _ => .error rfl, fun read hread => ?_, by simp [jsonView]⟩
    rw [jsonView, itemViews_eq_map, List.map_map] at hread
    obtain ⟨j, hj, rfl⟩ := List.mem_map.1 hread
    exact (ih j hj).value hclosed
  | _ => exact hrefused _

theorem Closed.onlyDataFaults_ofJson (hclosed : codec.Closed) {typeName : String}
    (htype : codec.message typeName = .ok decl) (json : Json) :
    OnlyDataFaults (codec.ofJson typeName json) := by
  have hdecl := mem_of_message htype
  obtain ⟨start, hstart⟩ := hclosed.exists_newMessage hdecl
  simp only [ofJson, htype, hstart]
  exact (hclosed.steady_jsonView json).message decl hdecl start

/-! ## Entries of maps -/

/-- A record of an entry whose value is a message leaves a message there. -/
theorem value_of_enter_entry {path : String} {key value : FieldInfo} {target : TypeRef}
    (hkey : key.kind.isMapKey = true) (hvalue : value.kind = .message target)
    {occurrence : Occurrence} (h : Reads codec (entrySlots path key value) occurrence)
    {m next : Message} (hm : ∃ x, m.get? valueName = some (.message x))
    (henter : codec.enter m occurrence = .ok next) :
    ∃ x, next.get? valueName = some (.message x) := by
  have hne : keyName ≠ valueName := by decide
  cases h with
  | unknown =>
    cases henter
    exact hm
  | @scalars number slot kind repeated values hslot hform _ hcount =>
    cases henter
    rcases entrySlots_eq_some hslot with rfl | rfl
    · obtain ⟨-, rfl⟩ := Form.ofKind_eq_scalar hform
      obtain ⟨v, rfl⟩ := hcount.resolve_left Bool.false_ne_true
      rw [absorb_singleton, Slot.get?_store, if_neg List.not_mem_nil, if_neg hne]
      exact hm
    · rw [hvalue] at hform
      cases hform
  | body hslot hform =>
    obtain ⟨inner, start, done, -, -, rfl⟩ := exists_of_enter_body henter
    rcases entrySlots_eq_some hslot with rfl | rfl
    · obtain ⟨target', hkind, -⟩ := Form.ofKind_eq_nested hform
      rw [hkind] at hkey
      cases hkey
    · obtain ⟨target', -, rfl⟩ := Form.ofKind_eq_nested hform
      refine ⟨done, ?_⟩
      rw [Slot.get?_store, if_neg List.not_mem_nil, if_pos rfl]
      rfl

theorem value_of_decodeInto_entry {path : String} {key value : FieldInfo} {target : TypeRef}
    (hkey : key.kind.isMapKey = true) (hvalue : value.kind = .message target) {c : Cursor}
    {m done : Message} (hm : ∃ x, m.get? valueName = some (.message x))
    (h : codec.decodeInto (entrySlots path key value) c m = .ok done) :
    ∃ x, done.get? valueName = some (.message x) := by
  induction hn : c.size using Nat.strongRecOn generalizing c m with
  | _ n ih =>
    subst hn
    by_cases hb : c.bytes = []
    · rw [decodeInto_nil _ _ m hb] at h
      cases h
      exact hm
    · obtain ⟨occurrence, rest, next, hread, henter, hrest⟩ := exists_step_of_decodeInto hb h
      refine ih _ (readRecord_moved hread).1.size_lt ?_ hrest rfl
      exact value_of_enter_entry hkey hvalue (reads_of_readRecord hread) hm henter

/-- An entry whose value is a message holds one at first. -/
theorem value_of_openNested_entry {path : String} {key value : FieldInfo} {target : TypeRef}
    (hvalue : value.kind = .message target) {old : Option Value} {slots : Slots} {start : Message}
    (h : codec.openNested path (.entry key value) old = .ok (slots, start)) :
    slots = entrySlots path key value ∧ ∃ x, start.get? valueName = some (.message x) := by
  obtain ⟨k, -, h⟩ := Except.exists_of_bind h
  obtain ⟨initial, -, h⟩ := Except.exists_of_bind h
  simp only [hvalue] at h
  obtain ⟨v, hv, h⟩ := Except.exists_of_bind h
  obtain ⟨x, -, rfl⟩ := exists_of_map_eq_ok hv
  cases h
  exact ⟨rfl, x, rfl⟩

end Codec
end ProtoStub
