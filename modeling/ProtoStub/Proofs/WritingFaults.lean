import ProtoStub.Codec.Encode
import ProtoStub.Codec.ToJson
import ProtoStub.Proofs.DataFaults

/-!
# Faults of what is written

Writing a message of a type that a closed codec knows fails only by a fault of the message: a value
that does not suit its field. Both formats are written through views of values, so the induction
over values is the same for both (`Value.steady_view`).
-/

namespace ProtoStub

/-! ## Views -/

/-- The values that a value is made of. -/
def Value.parts : Value → List Value
  | .message m => m.fields.map (·.2)
  | .list items => items
  | .map entries => entries.map (·.2)
  | _ => []

/-- Induction over a value: what holds wherever it holds of the values in it. -/
@[elab_as_elim] theorem Value.induct {motive : Value → Prop}
    (step : ∀ v : Value, (∀ part ∈ v.parts, motive part) → motive v) (v : Value) : motive v :=
  step v fun part _ => Value.induct step part
termination_by sizeOf v
decreasing_by
  cases v with
  | message m =>
    obtain ⟨p, hp, rfl⟩ := List.mem_map.1 ‹_›
    have := List.sizeOf_lt_of_mem hp
    cases p
    cases m
    simp only [Value.message.sizeOf_spec, Message.mk.sizeOf_spec, Prod.mk.sizeOf_spec] at this ⊢
    omega
  | list items =>
    have := List.sizeOf_lt_of_mem ‹part ∈ items›
    simp only [Value.list.sizeOf_spec]
    omega
  | map entries =>
    obtain ⟨p, hp, rfl⟩ := List.mem_map.1 ‹_›
    have := List.sizeOf_lt_of_mem hp
    cases p
    simp only [Value.map.sizeOf_spec, Prod.mk.sizeOf_spec] at this ⊢
    omega
  | _ => exact absurd ‹_› List.not_mem_nil

/-- A value of which the value itself and all its parts are written without any fault but those of
the data. -/
structure View.Steady {α : Type} (codec : Codec) (view : View α) : Prop where
  write : codec.Steady view.write
  items : ∀ write ∈ view.items, codec.Steady write
  entries : ∀ p ∈ view.entries, codec.Steady p.2

/-- Views are steady if their nodes are. -/
theorem Value.steady_view {α : Type} {codec : Codec}
    {node : Value → List (String × View α) → Writer α}
    (hnode : ∀ v views, (∀ p ∈ views, p.2.Steady codec) → codec.Steady (node v views))
    (v : Value) : (v.view node).Steady codec := by
  refine Value.induct (fun v ih => ?_) v
  cases v with
  | message m =>
    obtain ⟨typeName, fields⟩ := m
    refine ⟨hnode _ _ ?_, by simp [Value.view], by simp [Value.view]⟩
    rw [Value.fieldViews_eq_map]
    intro p hp
    obtain ⟨q, hq, rfl⟩ := List.mem_map.1 hp
    exact ih q.2 (List.mem_map_of_mem hq)
  | list items =>
    refine ⟨hnode _ [] (by simp), ?_, by simp [Value.view]⟩
    rw [Value.view, Value.writers_eq_map]
    intro write hwrite
    obtain ⟨item, hitem, rfl⟩ := List.mem_map.1 hwrite
    exact (ih item hitem).write
  | map entries =>
    refine ⟨hnode _ [] (by simp), by simp [Value.view], ?_⟩
    rw [Value.view, Value.entryWriters_eq_map]
    intro p hp
    obtain ⟨q, hq, rfl⟩ := List.mem_map.1 hp
    exact (ih q.2 (List.mem_map_of_mem hq)).write
  | _ => exact ⟨hnode _ [] (by simp), by simp [Value.view], by simp [Value.view]⟩

namespace Codec

open Wire

variable {codec : Codec} {decl : MessageDecl}

/-! ## Bytes -/

theorem onlyDataFaults_numberOfEnum {target : TypeRef} (h : codec.Indexed (.enum target))
    (path : String) (v : EnumValue) :
    OnlyDataFaults (codec.numberOfEnum target.fqName path v) := by
  cases v with
  | unknown number => exact .ok number
  | named name =>
    obtain ⟨e, he⟩ := h
    simp only [numberOfEnum, he]
    refine OnlyDataFaults.bind (.ok e) fun e _ => ?_
    split
    · exact .ok _
    · exact .error rfl

theorem onlyDataFaults_isZero {kind : FieldKind} (h : codec.Supports kind) (path : String)
    (v : Value) : OnlyDataFaults (codec.isZero kind path v) := by
  unfold isZero
  split
  case h_10 =>
    split
    · exact (onlyDataFaults_numberOfEnum h.indexed path _).map _
    · exact .ok _
  all_goals exact .ok _

theorem steady_scalarBytes (codec : Codec) (v : Value) : codec.Steady (codec.scalarBytes v) := by
  intro kind path h
  unfold scalarBytes
  split
  case h_16 =>
    split
    next e he => exact (onlyDataFaults_numberOfEnum h.indexed path _).error_of_eq he
    · exact .ok _
  case h_17 => exact .error rfl
  all_goals exact .ok _

section

variable {write : Writer (List UInt8)} {writers : List (Writer (List UInt8))} {info : FieldInfo}

theorem onlyDataFaults_valueRecord (hkind : codec.Supports info.kind) (h : codec.Steady write)
    (path : String) : OnlyDataFaults (valueRecord write info path) := by
  unfold valueRecord
  split
  next e he => exact (h _ path hkind).error_of_eq he
  · exact .ok _

theorem onlyDataFaults_packedBytes {kind : FieldKind} (hkind : codec.Supports kind)
    (h : ∀ write ∈ writers, codec.Steady write) (path : String) :
    OnlyDataFaults (packedBytes kind path writers) := by
  induction writers with
  | nil => exact .ok []
  | cons write rest ih =>
    rw [List.forall_mem_cons] at h
    rw [packedBytes]
    split
    next e he => exact (h.1 kind path hkind).error_of_eq he
    · split
      next e he => exact (ih h.2).error_of_eq he
      · exact .ok _

theorem onlyDataFaults_itemRecords (hkind : codec.Supports info.kind)
    (h : ∀ write ∈ writers, codec.Steady write) (path : String) :
    OnlyDataFaults (itemRecords info path writers) := by
  induction writers with
  | nil => exact .ok []
  | cons write rest ih =>
    rw [List.forall_mem_cons] at h
    rw [itemRecords]
    split
    next e he => exact (onlyDataFaults_valueRecord hkind h.1 path).error_of_eq he
    · split
      next e he => exact (ih h.2).error_of_eq he
      · exact .ok _

theorem onlyDataFaults_entryRecords {key value : FieldInfo} (hkey : key.kind.isMapKey = true)
    (hvalue : codec.Supports value.kind) (number : UInt32) (path : String)
    {writers : List (String × Writer (List UInt8))} (h : ∀ p ∈ writers, codec.Steady p.2) :
    OnlyDataFaults (codec.entryRecords number key value path writers) := by
  induction writers with
  | nil => exact .ok []
  | cons p rest ih =>
    obtain ⟨text, write⟩ := p
    rw [List.forall_mem_cons] at h
    have hentry : OnlyDataFaults (codec.entryBytes key value path text write) := by
      unfold entryBytes
      split
      · exact .error rfl
      next k _ =>
        split
        next e he =>
          exact (onlyDataFaults_valueRecord (supports_of_isMapKey hkey)
            (steady_scalarBytes codec k) path).error_of_eq he
        · split
          next e he => exact (onlyDataFaults_valueRecord hvalue h.1 path).error_of_eq he
          · exact .ok _
    rw [entryRecords]
    split
    next e he => exact hentry.error_of_eq he
    · split
      next e he => exact (ih h.2).error_of_eq he
      · exact .ok _

end

theorem onlyDataFaults_fieldRecords {field : Field} (hf : field.Formed)
    (hkind : codec.Supports field.contentKind) (path : String) {view : View (List UInt8)}
    (h : view.Steady codec) : OnlyDataFaults (codec.fieldRecords field path view) := by
  cases hf with
  | map _ _ _ _ hkey =>
    unfold fieldRecords
    simp only
    split
    · exact onlyDataFaults_entryRecords hkey hkind _ path h.entries
    · exact .error rfl
  | @plain info =>
    have hvalue := onlyDataFaults_valueRecord hkind h.write path
    unfold fieldRecords
    simp only
    split
    · split
      · unfold listRecords
        split
        · exact .ok []
        · split
          · exact (onlyDataFaults_packedBytes hkind h.items path).map _
          · exact onlyDataFaults_itemRecords hkind h.items path
      · exact .error rfl
    · unfold singleRecord
      split
      · split
        next e he => exact (onlyDataFaults_isZero hkind path view.value).error_of_eq he
        · exact .ok []
        · exact hvalue
      · exact hvalue

theorem Closed.onlyDataFaults_recordsOf (hclosed : codec.Closed) (hdecl : decl ∈ codec.messages)
    {views : List (String × View (List UInt8))} (hviews : ∀ p ∈ views, p.2.Steady codec)
    {fields : List Field} (hsub : ∀ field ∈ fields, field ∈ decl.fields) :
    OnlyDataFaults (codec.recordsOf decl views fields) := by
  induction fields with
  | nil => exact .ok []
  | cons field rest ih =>
    rw [List.forall_mem_cons] at hsub
    have hpresent : OnlyDataFaults (codec.presentRecords decl views field) := by
      unfold presentRecords
      split
      · exact .ok []
      next view hfound =>
        exact onlyDataFaults_fieldRecords (hclosed.formed decl hdecl field hsub.1)
          (hclosed.supports hdecl hsub.1) _ (hviews _ (KeyMap.mem_of_find? hfound))
    rw [recordsOf]
    split
    next e he => exact hpresent.error_of_eq he
    · split
      next e he => exact (ih hsub.2).error_of_eq he
      · exact .ok _

theorem Closed.steady_valueBytes (hclosed : codec.Closed) (v : Value)
    (views : List (String × View (List UInt8))) (hviews : ∀ p ∈ views, p.2.Steady codec) :
    codec.Steady (codec.valueBytes v views) := by
  intro kind path hkind
  unfold valueBytes
  split
  · obtain ⟨decl, hdecl⟩ := hkind.indexed
    simp only [hdecl]
    exact (hclosed.onlyDataFaults_recordsOf (mem_of_message hdecl) hviews fun _ hf => hf).map _
  · exact steady_scalarBytes codec v kind path hkind

theorem Closed.onlyDataFaults_encode (hclosed : codec.Closed) {m : Message}
    (htype : codec.message m.typeName = .ok decl) : OnlyDataFaults (codec.encode m) := by
  simp only [encode, htype, encodeAs]
  refine hclosed.onlyDataFaults_recordsOf (mem_of_message htype) ?_ fun _ hf => hf
  rw [Value.fieldViews_eq_map]
  intro p hp
  obtain ⟨q, -, rfl⟩ := List.mem_map.1 hp
  exact q.2.steady_view hclosed.steady_valueBytes

/-! ## Documents -/

theorem steady_scalarJson (codec : Codec) (v : Value) : codec.Steady (scalarJson v) := by
  intro kind path _
  unfold scalarJson
  split
  all_goals first | exact .ok _ | exact .error rfl

theorem onlyDataFaults_itemsJson {kind : FieldKind} (hkind : codec.Supports kind) (path : String)
    {writers : List (Writer Json)} (h : ∀ write ∈ writers, codec.Steady write) :
    OnlyDataFaults (itemsJson kind path writers) := by
  induction writers with
  | nil => exact .ok []
  | cons write rest ih =>
    rw [List.forall_mem_cons] at h
    rw [itemsJson]
    split
    next e he => exact (h.1 kind path hkind).error_of_eq he
    · exact (ih h.2).map _

theorem onlyDataFaults_entriesJson {kind : FieldKind} (hkind : codec.Supports kind) (path : String)
    {writers : List (String × Writer Json)} (h : ∀ p ∈ writers, codec.Steady p.2)
    (members : KeyMap Json) : OnlyDataFaults (entriesJson kind path members writers) := by
  induction writers generalizing members with
  | nil => exact .ok members
  | cons p rest ih =>
    obtain ⟨key, write⟩ := p
    rw [List.forall_mem_cons] at h
    rw [entriesJson]
    split
    next e he => exact (h.1 kind path hkind).error_of_eq he
    · exact ih h.2 _

theorem onlyDataFaults_contentJson {field : Field} (hkind : codec.Supports field.contentKind)
    (path : String) {view : View Json} (h : view.Steady codec) :
    OnlyDataFaults (contentJson field path view) := by
  unfold contentJson
  split
  · exact (onlyDataFaults_entriesJson hkind path h.entries _).map _
  · exact .error rfl
  · split
    · split
      · exact (onlyDataFaults_itemsJson hkind path h.items).map _
      · exact .error rfl
    · exact h.write _ path hkind

theorem onlyDataFaults_isShown {field : Field} (hkind : codec.Supports field.contentKind)
    (path : String) (v : Value) : OnlyDataFaults (codec.isShown field path v) := by
  unfold isShown
  split
  · exact .ok _
  · exact .ok _
  · split
    next himplicit =>
      -- A field that cannot be absent is no map, so its kind is that of its content.
      cases field with
      | map info key value => simp [Field.implicitPresence, Field.isMap] at himplicit
      | plain info => exact (onlyDataFaults_isZero hkind path _).map _
    · exact .ok _

theorem Closed.onlyDataFaults_membersOf (hclosed : codec.Closed) (hdecl : decl ∈ codec.messages)
    {views : List (String × View Json)} (hviews : ∀ p ∈ views, p.2.Steady codec)
    {fields : List Field} (hsub : ∀ field ∈ fields, field ∈ decl.fields) (members : KeyMap Json) :
    OnlyDataFaults (codec.membersOf decl views fields members) := by
  induction fields generalizing members with
  | nil => exact .ok members
  | cons field rest ih =>
    rw [List.forall_mem_cons] at hsub
    have hkind := hclosed.supports hdecl hsub.1
    rw [membersOf]
    split
    · exact ih hsub.2 members
    next view hfound =>
      have hview := hviews _ (KeyMap.mem_of_find? hfound)
      split
      next e he => exact (onlyDataFaults_isShown hkind _ view.value).error_of_eq he
      · exact ih hsub.2 members
      · split
        next e he => exact (onlyDataFaults_contentJson hkind _ hview).error_of_eq he
        · exact ih hsub.2 _

theorem Closed.steady_valueJson (hclosed : codec.Closed) (v : Value)
    (views : List (String × View Json)) (hviews : ∀ p ∈ views, p.2.Steady codec) :
    codec.Steady (codec.valueJson v views) := by
  intro kind path hkind
  unfold valueJson
  split
  · obtain ⟨decl, hdecl⟩ := hkind.indexed
    simp only [hdecl]
    exact (hclosed.onlyDataFaults_membersOf (mem_of_message hdecl) hviews (fun _ hf => hf) _).map _
  · exact steady_scalarJson codec v kind path hkind

theorem Closed.onlyDataFaults_toJson (hclosed : codec.Closed) {m : Message}
    (htype : codec.message m.typeName = .ok decl) : OnlyDataFaults (codec.toJson m) := by
  simp only [toJson, htype, toJsonAs]
  refine (hclosed.onlyDataFaults_membersOf (mem_of_message htype) ?_ (fun _ hf => hf) _).map _
  rw [Value.fieldViews_eq_map]
  intro p hp
  obtain ⟨q, -, rfl⟩ := List.mem_map.1 hp
  exact q.2.steady_view hclosed.steady_valueJson

end Codec
end ProtoStub
