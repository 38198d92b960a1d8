import ProtoStub.Proofs.BinaryRoundTrip
import ProtoStub.Proofs.Canonical

/-!
# Writing what was read

Bytes are not unique: integers can be longer than they need to be, records can come in any
order and repeat, and some are passed over. The message that is read from them is canonical
though, so writing it and reading it again changes no more than the sign of zeros that are not
written, and after that the bytes stay the same.
-/

namespace ProtoStub.Codec

open Wire

variable {codec : Codec} {rules : Discipline}

/-! ## Records that hang on nothing but what is written -/

theorem packedBytes_congr {α : Type} {kind : FieldKind} {path : String} {items : List α}
    {f g : α → Writer (List UInt8)} (h : ∀ x ∈ items, f x kind path = g x kind path) :
    packedBytes kind path (items.map f) = packedBytes kind path (items.map g) := by
  induction items with
  | nil => rfl
  | cons x rest ih =>
    rw [List.forall_mem_cons] at h
    simp only [List.map_cons, packedBytes, h.1, ih h.2]

theorem itemRecords_congr {α : Type} {info : FieldInfo} {path : String} {items : List α}
    {f g : α → Writer (List UInt8)} (h : ∀ x ∈ items, f x info.kind path = g x info.kind path) :
    itemRecords info path (items.map f) = itemRecords info path (items.map g) := by
  induction items with
  | nil => rfl
  | cons x rest ih =>
    rw [List.forall_mem_cons] at h
    simp only [List.map_cons, itemRecords, valueRecord, h.1, ih h.2]

theorem listRecords_congr {α : Type} {info : FieldInfo} {path : String} {items : List α}
    {f g : α → Writer (List UInt8)} (h : ∀ x ∈ items, f x info.kind path = g x info.kind path) :
    listRecords info path (items.map f) = listRecords info path (items.map g) := by
  simp only [listRecords, List.isEmpty_map, packedBytes_congr h, itemRecords_congr h]

theorem entryRecords_congr {α : Type} {number : UInt32} {key value : FieldInfo} {path : String}
    {entries : List (String × α)} (f g : α → Writer (List UInt8))
    (h : ∀ p ∈ entries, f p.2 value.kind path = g p.2 value.kind path) :
    codec.entryRecords number key value path (entries.map fun p => (p.1, f p.2)) =
      codec.entryRecords number key value path (entries.map fun p => (p.1, g p.2)) := by
  induction entries with
  | nil => rfl
  | cons p rest ih =>
    rw [List.forall_mem_cons] at h
    simp only [List.map_cons, entryRecords, entryBytes, valueRecord, h.1, ih h.2]

theorem recordsOf_congr {decl : MessageDecl} {views views' : List (String × View (List UInt8))}
    {fields : List Field} (h : ∀ field ∈ fields,
      codec.presentRecords decl views field = codec.presentRecords decl views' field) :
    codec.recordsOf decl views fields = codec.recordsOf decl views' fields := by
  induction fields with
  | nil => rfl
  | cons field rest ih =>
    rw [List.forall_mem_cons] at h
    simp only [recordsOf, h.1, ih h.2]

/-! ## The sign of a zero that is not written -/

/-- A message is written the same with the signs of such zeros and without. -/
def SignFree (codec : Codec) (decl : MessageDecl) (m : Message) : Prop :=
  codec.encodeAs decl (m.revise codec plainZeros decl) = codec.encodeAs decl m

theorem Conforms.write_plainZeros {kind : FieldKind} {v : Value}
    (h : Conforms codec rules (SignFree codec) kind v) (path : String) :
    ((v.revise codec plainZeros kind).view codec.valueBytes).write kind path =
      (v.view codec.valueBytes).write kind path := by
  cases h with
  | scalar hfits => rw [Value.revise_of_fits hfits]
  | message hdecl hm => rw [Value.revise_message hdecl, write_message hdecl, write_message hdecl, hm]

theorem singleRecord_plainZero {field : Field} (h : field.implicitPresence = true) (path : String)
    (v : Value) :
    codec.singleRecord field path (v.plainZero.view codec.valueBytes) =
      codec.singleRecord field path (v.view codec.valueBytes) := by
  by_cases hneg : v.IsNegativeZero
  · have hzero : ∀ w : Value, codec.isZero field.info.kind path w = .ok true →
        codec.singleRecord field path (w.view codec.valueBytes) = .ok [] := by
      intro w hw
      simp only [singleRecord, h, if_true, Value.view_value, hw]
    rcases hneg with rfl | rfl
    · rw [hzero _ rfl, hzero _ rfl]
    · rw [hzero _ rfl, hzero _ rfl]
  · rw [Value.plainZero_of_not hneg]

theorem Holds.fieldRecords_plainZeros {field : Field} {v : Value}
    (h : Holds codec rules (SignFree codec) field v) (path : String) :
    ∃ w, plainZeros field (some (v.revise codec plainZeros field.contentKind)) = some w ∧
      codec.fieldRecords field path (w.view codec.valueBytes) =
        codec.fieldRecords field path (v.view codec.valueBytes) := by
  cases himplicit : field.implicitPresence with
  | true =>
    obtain ⟨hfits, hkind⟩ := h.fits_of_implicit himplicit
    refine ⟨v.plainZero, ?_, ?_⟩
    · rw [plainZeros, himplicit, if_pos rfl, hkind, Value.revise_of_fits hfits, Option.map_some]
    · cases h with
      | map => simp [Field.implicitPresence, Field.isMap] at himplicit
      | list hrep => simp [Field.implicitPresence, Field.info, hrep] at himplicit
      | single hsingle hv =>
        simp only [fieldRecords, hsingle, Bool.false_eq_true, if_false]
        exact singleRecord_plainZero himplicit path v
  | false =>
    refine ⟨v.revise codec plainZeros field.contentKind, ?_, ?_⟩
    · rw [plainZeros, himplicit, if_neg Bool.false_ne_true]
    · cases h with
      | single hsingle hv =>
        simp only [fieldRecords, hsingle, Bool.false_eq_true, if_false, singleRecord, himplicit,
          valueRecord, Field.info, Field.contentKind, hv.write_plainZeros path]
      | @list info items hrep hvs =>
        rw [Value.revise_list]
        simp only [fieldRecords, hrep, if_true, Value.view, Value.writers_eq_map, List.map_map]
        exact listRecords_congr fun v hv => (hvs v hv).write_plainZeros path
      | @map info key value entries hsorted hkeys hvs =>
        rw [Value.revise_map]
        simp only [fieldRecords, Value.view, Value.entryWriters_eq_map, List.map_map]
        exact entryRecords_congr
          (fun v => ((v.revise codec plainZeros value.info.kind).view codec.valueBytes).write)
          (fun v => (v.view codec.valueBytes).write)
          fun p hp => (hvs p hp).write_plainZeros path

theorem ConformsTo.signFree (hvalid : codec.Valid) {decl : MessageDecl} {m : Message}
    (h : ConformsTo codec rules decl m) : decl ∈ codec.messages → SignFree codec decl m := by
  refine ConformsTo.induct (fun decl m hm ih hdecl => ?_) h
  refine recordsOf_congr fun field hf => ?_
  rw [presentRecords_eq, presentRecords_eq, Message.get?_revise (hvalid.properties decl hdecl) hf]
  cases hv : m.get? field.info.name with
  | none => rw [Option.map_none, plainZeros, Option.map_none, ite_self]
  | some v =>
    have hholds : Holds codec rules (SignFree codec) field v :=
      (ih field hf v hv).imp fun _ _ _ _ hd hx => hx.2 (mem_of_message hd)
    obtain ⟨w, hw, hsame⟩ := hholds.fieldRecords_plainZeros (fieldPath decl field.info)
    rw [Option.map_some, hw]
    exact hsame

/-! ## Reading, writing and reading again -/

/-- Where everything that has a default is there, to settle a message is to drop the signs of
zeros. -/
theorem ConformsTo.revise_settle_eq_plainZeros {decl : MessageDecl} {m : Message}
    (h : ConformsTo codec rules decl m)
    (hlevel : ∀ decl m, rules.level decl m → Complete codec decl m) :
    m.revise codec codec.settle decl = m.revise codec plainZeros decl := by
  refine h.revise_congr fun decl m hm field hf => ?_
  cases hv : m.get? field.info.name with
  | none =>
    have hdefault : codec.defaultOf field = none := by
      by_contra hsome
      rw [← ne_eq, Option.ne_none_iff_isSome] at hsome
      have := hlevel decl m hm.level field hf hsome
      rw [hv] at this
      cases this
    rw [Option.map_none, settle_none, hdefault, plainZeros, Option.map_none, ite_self]
  | some v =>
    rw [Option.map_some]
    cases himplicit : field.implicitPresence with
    | true => rw [settle_implicit codec himplicit, plainZeros, himplicit, if_pos rfl,
        Option.map_some]
    | false => rw [settle_explicit codec himplicit, plainZeros, himplicit,
        if_neg Bool.false_ne_true]

/-- The bytes of a tree as an irregular writer would put them: the height is a negative zero, the
number of the club is longer than it need be and gives way to a person, the same mark is set
twice, and the last field is unknown. -/
def irregularTree : List UInt8 :=
  [0x28, 0x87, 0, 0x1a, 0, 0x09, 0, 0, 0, 0, 0, 0, 0, 0x80, 0x22, 1, 0x41, 0x1a, 2, 0x08, 0,
    0x12, 3, 0x28, 0x81, 0, 0x30, 1]

/-- What those bytes are read as. -/
def regularTree : Message :=
  ⟨"grove.Tree",
    [("branches", .list [.message ⟨"grove.Tree", [("branches", .list []), ("club", .int64 1),
        ("marks", .map []), ("treeHeight", .double .zero)]⟩]),
      ("marks", .map [("0", .enum (.named "UNKNOWN"))]), ("person", .string "A"),
      ("treeHeight", .double .negativeZero)]⟩

end ProtoStub.Codec
