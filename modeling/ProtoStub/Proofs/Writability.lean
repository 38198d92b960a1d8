import ProtoStub.Proofs.BinaryRoundTrip
import ProtoStub.Proofs.JsonReading

/-!
# Which messages can be written

A message that conforms to its type can be written unless a key of a map stands in the way:
maps go by the texts of their keys, and not every text is a key of the kind that the map has.
`encodeAs_eq_ok_iff` says so of any message whose enums have numbers. Messages that were read
from JSON are such messages, but a document can give a map any keys, so that not all that is
read from JSON can be written (`encode_eq_ok_iff_of_ofJson`).
-/

namespace ProtoStub

/-- The message that a value is. -/
def Value.asMessage? : Value → Option Message
  | .message m => some m
  | _ => none

/-- The messages that the value of a property holds: itself, its items or its entries. -/
def Value.messages : Value → List Message
  | .message m => [m]
  | .list items => items.filterMap Value.asMessage?
  | .map entries => entries.filterMap fun p => p.2.asMessage?
  | _ => []

/-- The keys that the value of a field holds, each with the kind that it is to be of. -/
def Field.keysIn : Field → Value → List (FieldKind × String)
  | .map _ key _, .map entries => entries.map fun p => (key.info.kind, p.1)
  | _, _ => []

theorem Value.asMessage?_eq_some {v : Value} {m : Message} :
    v.asMessage? = some m ↔ v = .message m := by
  cases v <;> simp [Value.asMessage?]

namespace Codec

open Wire

/-- A key of a map of a message or of a message in it, at any depth. -/
inductive KeyIn (codec : Codec) : MessageDecl → Message → FieldKind → String → Prop
  | own {decl : MessageDecl} {m : Message} {field : Field} {v : Value} {kind : FieldKind}
      {text : String} (declared : field ∈ decl.fields) (value : m.get? field.info.name = some v)
      (key : (kind, text) ∈ field.keysIn v) : KeyIn codec decl m kind text
  | nested {decl inner : MessageDecl} {m x : Message} {field : Field} {v : Value}
      {target : TypeRef} {kind : FieldKind} {text : String} (declared : field ∈ decl.fields)
      (value : m.get? field.info.name = some v) (message : x ∈ v.messages)
      (content : field.contentKind = .message target)
      (resolves : codec.message target.fqName = .ok inner)
      (key : KeyIn codec inner x kind text) : KeyIn codec decl m kind text

/-- A message can be written as one of a type. -/
def Writable (codec : Codec) (decl : MessageDecl) (m : Message) : Prop :=
  ∃ bytes, codec.encodeAs decl m = .ok bytes

/-- A message can be written as the value of a field of a kind. -/
def WritableAs (codec : Codec) (kind : FieldKind) (m : Message) : Prop :=
  ∀ target inner, kind = .message target → codec.message target.fqName = .ok inner →
    Writable codec inner m

variable {codec : Codec} {rules : Discipline} {nested : MessageDecl → Message → Prop}

/-! ## Sequences of records -/

theorem packedBytes_ok_iff {kind : FieldKind} {path : String}
    {writers : List (Writer (List UInt8))} :
    (∃ bs, packedBytes kind path writers = .ok bs) ↔
      ∀ write ∈ writers, ∃ bs, write kind path = .ok bs := by
  induction writers with
  | nil => simp [packedBytes]
  | cons write rest ih =>
    rw [List.forall_mem_cons, ← ih, packedBytes]
    cases write kind path with
    | error e => simp
    | ok first => cases packedBytes kind path rest <;> simp

theorem valueRecord_ok_iff {write : Writer (List UInt8)} {info : FieldInfo} {path : String} :
    (∃ bs, valueRecord write info path = .ok bs) ↔ ∃ bs, write info.kind path = .ok bs := by
  rw [valueRecord]
  cases write info.kind path <;> simp

theorem itemRecords_ok_iff {info : FieldInfo} {path : String}
    {writers : List (Writer (List UInt8))} :
    (∃ bs, itemRecords info path writers = .ok bs) ↔
      ∀ write ∈ writers, ∃ bs, write info.kind path = .ok bs := by
  induction writers with
  | nil => simp [itemRecords]
  | cons write rest ih =>
    rw [List.forall_mem_cons, ← ih, itemRecords, ← valueRecord_ok_iff]
    cases valueRecord write info path with
    | error e => simp
    | ok first => cases itemRecords info path rest <;> simp

theorem listRecords_ok_iff {info : FieldInfo} {path : String}
    {writers : List (Writer (List UInt8))} :
    (∃ bs, listRecords info path writers = .ok bs) ↔
      ∀ write ∈ writers, ∃ bs, write info.kind path = .ok bs := by
  rw [listRecords]
  by_cases hempty : writers.isEmpty = true
  · rw [if_pos hempty, List.isEmpty_iff.1 hempty]
    simp
  · rw [if_neg hempty]
    by_cases hpack : info.kind.isPackable = true
    · rw [if_pos hpack, ← packedBytes_ok_iff]
      cases packedBytes info.kind path writers <;> simp [Functor.map, Except.map]
    · rw [if_neg hpack, itemRecords_ok_iff]

theorem recordsOf_ok_iff {decl : MessageDecl} {views : List (String × View (List UInt8))}
    {fields : List Field} :
    (∃ bs, codec.recordsOf decl views fields = .ok bs) ↔
      ∀ field ∈ fields, ∃ bs, codec.presentRecords decl views field = .ok bs := by
  induction fields with
  | nil => simp [recordsOf]
  | cons field rest ih =>
    rw [List.forall_mem_cons, ← ih, recordsOf]
    cases codec.presentRecords decl views field with
    | error e => simp
    | ok first => cases codec.recordsOf decl views rest <;> simp

/-! ## Single values -/

theorem exists_numberOfEnum {target : TypeRef} {e : EnumDecl}
    (h : codec.enumeration target.fqName = .ok e) {v : EnumValue} (hv : e.Numbered v)
    (path : String) : ∃ number, codec.numberOfEnum target.fqName path v = .ok number := by
  cases v with
  | unknown number => exact ⟨number, rfl⟩
  | named name =>
    obtain ⟨number, hnumber⟩ := Option.isSome_iff_exists.1 hv
    refine ⟨number, ?_⟩
    simp only [numberOfEnum, h, bind, Except.bind, hnumber]
    rfl

theorem exists_scalarBytes {kind : FieldKind} {v : Value}
    (h : Fits codec EnumDecl.Numbered kind v) (path : String) :
    ∃ bs, codec.scalarBytes v kind path = .ok bs := by
  cases h with
  | enum hdeclared hvalue =>
    obtain ⟨number, hnumber⟩ := exists_numberOfEnum hdeclared hvalue path
    exact ⟨encodeVarint (UInt64.ofInt number.toInt), by simp only [scalarBytes, hnumber]⟩
  | _ => exact ⟨_, rfl⟩

theorem exists_isZero {kind : FieldKind} {v : Value} (h : Fits codec EnumDecl.Numbered kind v)
    (path : String) : ∃ zero, codec.isZero kind path v = .ok zero := by
  cases h with
  | enum hdeclared hvalue =>
    obtain ⟨number, hnumber⟩ := exists_numberOfEnum hdeclared hvalue path
    exact ⟨_, by simp only [isZero, hnumber]; rfl⟩
  | _ => exact ⟨_, rfl⟩

theorem Conforms.mem_messages {kind : FieldKind} {v : Value}
    (h : Conforms codec rules nested kind v) {m : Message} :
    m ∈ v.messages ↔ v.asMessage? = some m := by
  cases h with
  | scalar hfits => cases hfits <;> simp [Value.messages, Value.asMessage?]
  | message => simp [Value.messages, Value.asMessage?, eq_comm]

theorem Conforms.nested_of_asMessage? {kind : FieldKind} {v : Value}
    (h : Conforms codec rules nested kind v) {target : TypeRef} {inner : MessageDecl}
    (hkind : kind = .message target) (hinner : codec.message target.fqName = .ok inner)
    {m : Message} (hm : v.asMessage? = some m) : nested inner m := by
  rw [Value.asMessage?_eq_some] at hm
  subst hkind hm
  exact h.nested hinner

/-- A single value is written if it is no message, or one that can be written. -/
theorem Conforms.write_ok_iff (hnumbered : ∀ e v, rules.enum e v → e.Numbered v)
    {kind : FieldKind} {v : Value} (h : Conforms codec rules nested kind v) (path : String) :
    (∃ bs, (v.view codec.valueBytes).write kind path = .ok bs) ↔
      ∀ m, v.asMessage? = some m → WritableAs codec kind m := by
  cases h with
  | scalar hfits =>
    obtain ⟨bs, hbs⟩ := exists_scalarBytes (hfits.mono hnumbered) path
    refine ⟨fun _ m hm => ?_, fun _ => ⟨bs, (write_of_fits hfits path).trans hbs⟩⟩
    rw [Value.asMessage?_eq_some] at hm
    subst hm
    cases hfits
  | @message target decl m hdecl hm =>
    rw [write_message hdecl]
    constructor
    · rintro ⟨bs, hbs⟩ x hx target' inner htarget hinner
      obtain ⟨body, hbody, -⟩ := exists_of_map_eq_ok hbs
      cases hx
      cases htarget
      rw [hdecl] at hinner
      cases hinner
      exact ⟨body, hbody⟩
    · intro hwritable
      obtain ⟨body, hbody⟩ := hwritable m rfl target decl rfl hdecl
      exact ⟨lengthPrefixed body, by rw [hbody]; rfl⟩

/-! ## Fields -/

theorem entryBytes_ok_iff {key value : FieldInfo} {path text : String}
    {write : Writer (List UInt8)} :
    (∃ bs, codec.entryBytes key value path text write = .ok bs) ↔
      (keyOfText? key.kind text).isSome = true ∧ ∃ bs, write value.kind path = .ok bs := by
  rw [entryBytes]
  cases hkey : keyOfText? key.kind text with
  | none => simp
  | some k =>
    obtain ⟨kb, hkb⟩ := exists_scalarBytes (fits_of_keyOfText? codec _ hkey) path
    simp only [valueRecord, hkb, Option.isSome_some, true_and]
    cases write value.kind path <;> simp

theorem entryRecords_ok_iff {number : UInt32} {key value : FieldInfo} {path : String}
    {entries : List (String × Writer (List UInt8))} :
    (∃ bs, codec.entryRecords number key value path entries = .ok bs) ↔
      ∀ p ∈ entries, (keyOfText? key.kind p.1).isSome = true ∧
        ∃ bs, p.2 value.kind path = .ok bs := by
  induction entries with
  | nil => simp [entryRecords]
  | cons p rest ih =>
    obtain ⟨text, write⟩ := p
    rw [List.forall_mem_cons, ← ih, entryRecords, ← entryBytes_ok_iff]
    cases codec.entryBytes key value path text write with
    | error e => simp
    | ok entry => cases codec.entryRecords number key value path rest <;> simp

theorem singleRecord_ok_iff (hnumbered : ∀ e v, rules.enum e v → e.Numbered v)
    {info : FieldInfo} (hsingle : info.repeated = false) {v : Value}
    (h : Conforms codec rules nested info.kind v) (path : String) :
    (∃ bs, codec.singleRecord (.plain info) path (v.view codec.valueBytes) = .ok bs) ↔
      ∃ bs, (v.view codec.valueBytes).write info.kind path = .ok bs := by
  rw [singleRecord]
  cases himplicit : (Field.plain info).implicitPresence with
  | false =>
    rw [if_neg Bool.false_ne_true]
    exact valueRecord_ok_iff
  | true =>
    -- What cannot be absent is no message, and is always written or left out.
    have hfits : Fits codec EnumDecl.Numbered info.kind v :=
      ((Holds.single hsingle h).fits_of_implicit himplicit).1.mono hnumbered
    obtain ⟨zero, hzero⟩ := exists_isZero hfits path
    obtain ⟨bs, hbs⟩ := exists_scalarBytes hfits path
    rw [← write_of_fits hfits path] at hbs
    rw [if_pos rfl, Value.view_value, Field.info, hzero]
    cases zero with
    | true => exact ⟨fun _ => ⟨bs, hbs⟩, fun _ => ⟨[], rfl⟩⟩
    | false => exact valueRecord_ok_iff

/-- A field is written if the keys and the messages that it holds can be. -/
theorem Holds.fieldRecords_ok_iff (hnumbered : ∀ e v, rules.enum e v → e.Numbered v)
    {field : Field} {v : Value} (h : Holds codec rules nested field v) (path : String) :
    (∃ bs, codec.fieldRecords field path (v.view codec.valueBytes) = .ok bs) ↔
      (∀ p ∈ field.keysIn v, (keyOfText? p.1 p.2).isSome = true) ∧
        ∀ m ∈ v.messages, WritableAs codec field.contentKind m := by
  cases h with
  | @single info v hsingle hv =>
    rw [fieldRecords, if_neg (by rw [hsingle]; decide), singleRecord_ok_iff hnumbered hsingle hv,
      hv.write_ok_iff hnumbered]
    simp [Field.keysIn, Field.contentKind, hv.mem_messages]
  | @list info items hrep hvs =>
    rw [fieldRecords, if_pos hrep]
    simp only [Value.view, Value.writers_eq_map]
    rw [listRecords_ok_iff, List.forall_mem_map]
    constructor
    · intro hwritten
      refine ⟨fun p hp => absurd hp List.not_mem_nil, fun m hm => ?_⟩
      obtain ⟨v, hv, hm⟩ := List.mem_filterMap.1 hm
      exact ((hvs v hv).write_ok_iff hnumbered path).1 (hwritten v hv) m hm
    · intro hwritable v hv
      rw [(hvs v hv).write_ok_iff hnumbered]
      exact fun m hm => hwritable.2 m (List.mem_filterMap.2 ⟨v, hv, hm⟩)
  | @map info key value entries hsorted hkeys hvs =>
    simp only [fieldRecords, Value.view, Value.entryWriters_eq_map]
    rw [entryRecords_ok_iff, List.forall_mem_map]
    constructor
    · intro hwritten
      refine ⟨List.forall_mem_map.2 fun p hp => (hwritten p hp).1, fun m hm => ?_⟩
      obtain ⟨p, hp, hm⟩ := List.mem_filterMap.1 hm
      exact ((hvs p hp).write_ok_iff hnumbered path).1 (hwritten p hp).2 m hm
    · intro hwritable p hp
      refine ⟨List.forall_mem_map.1 hwritable.1 p hp, ?_⟩
      rw [(hvs p hp).write_ok_iff hnumbered]
      exact fun m hm => hwritable.2 m (List.mem_filterMap.2 ⟨p, hp, hm⟩)

/-! ## Messages -/

theorem Holds.nested_of_mem_messages {field : Field} {v : Value}
    (h : Holds codec rules nested field v) {target : TypeRef} {inner : MessageDecl}
    (hkind : field.contentKind = .message target)
    (hinner : codec.message target.fqName = .ok inner) {m : Message} (hm : m ∈ v.messages) :
    nested inner m := by
  cases h with
  | single hsingle hv => exact hv.nested_of_asMessage? hkind hinner (hv.mem_messages.1 hm)
  | list hrep hvs =>
    obtain ⟨v, hv, hm⟩ := List.mem_filterMap.1 hm
    exact (hvs v hv).nested_of_asMessage? hkind hinner hm
  | map hsorted hkeys hvs =>
    obtain ⟨p, hp, hm⟩ := List.mem_filterMap.1 hm
    exact (hvs p hp).nested_of_asMessage? hkind hinner hm

/-- A message can be written if its fields can be. -/
theorem writable_iff (hnumbered : ∀ e v, rules.enum e v → e.Numbered v) {decl : MessageDecl}
    {m : Message} (hholds : ∀ field ∈ decl.fields, ∀ v, m.get? field.info.name = some v →
      Holds codec rules nested field v) :
    Writable codec decl m ↔
      ∀ field ∈ decl.fields, ∀ v, m.get? field.info.name = some v →
        (∀ p ∈ field.keysIn v, (keyOfText? p.1 p.2).isSome = true) ∧
          ∀ x ∈ v.messages, WritableAs codec field.contentKind x := by
  rw [Writable, encodeAs, recordsOf_ok_iff]
  refine forall₂_congr fun field hf => ?_
  rw [presentRecords_eq]
  cases hv : m.get? field.info.name with
  | none => simp
  | some v => simpa using (hholds field hf v hv).fieldRecords_ok_iff hnumbered _

/-- A message whose enums have numbers can be written if every key in it, at any depth, is one
of its kind. -/
theorem encodeAs_eq_ok_iff (hnumbered : ∀ e v, rules.enum e v → e.Numbered v)
    {decl : MessageDecl} {m : Message} (h : ConformsTo codec rules decl m) :
    (∃ bytes, codec.encodeAs decl m = .ok bytes) ↔
      ∀ kind text, KeyIn codec decl m kind text → (keyOfText? kind text).isSome = true := by
  refine ConformsTo.induct (fun decl m _ ih => ?_) h
  rw [show (∃ bytes, codec.encodeAs decl m = .ok bytes) ↔ _ from writable_iff hnumbered ih]
  constructor
  · intro hfields kind text hkey
    cases hkey with
    | own hf hv hkey => exact (hfields _ hf _ hv).1 _ hkey
    | nested hf hv hx hkind hinner hkey =>
      have hwritable := (hfields _ hf _ hv).2 _ hx _ _ hkind hinner
      exact ((ih _ hf _ hv).nested_of_mem_messages hkind hinner hx).2.1 hwritable kind text hkey
  · intro hkeys field hf v hv
    refine ⟨fun p hp => hkeys p.1 p.2 (.own hf hv hp), fun x hx target inner hkind hinner => ?_⟩
    refine ((ih field hf v hv).nested_of_mem_messages hkind hinner hx).2.2 ?_
    exact fun kind text hkey => hkeys kind text (.nested hf hv hx hkind hinner hkey)

/-! ## Messages read from JSON -/

/-- A message that was read from JSON can be written if, and only if, every key of every map in
it is one of the kind that the map has. It carries the full name of its type, under which the
type has to be found. -/
theorem encode_eq_ok_iff_of_ofJson (hresolved : codec.Resolved)
    (hproperties : ∀ decl ∈ codec.messages, decl.DistinctProperties)
    (hindexed : ∀ decl ∈ codec.messages, ∀ field ∈ decl.fields,
      codec.Indexed field.contentKind)
    {typeName : String} {decl : MessageDecl} (htype : codec.message typeName = .ok decl)
    (hown : codec.message decl.fqName = .ok decl) {json : Json} {m : Message}
    (h : codec.ofJson typeName json = .ok m) :
    (∃ bytes, codec.encode m = .ok bytes) ↔
      ∀ kind text, KeyIn codec decl m kind text → (keyOfText? kind text).isSome = true := by
  have hm := conformsTo_of_ofJson (hresolved.grounded hproperties hindexed) htype h
  rw [← encodeAs_eq_ok_iff (fun _ _ hv => hv) hm]
  simp only [encode, hm.typeName, hown]

/-- A tree with a mark, in JSON. -/
def markedJson (key : String) (branches : List Json) : Json :=
  .object [("branches", .array branches), ("marks", .object [(key, .string "FIR")])]

/-- A tree with a mark. -/
def markedTree (key : String) (branches : List Message) : Message :=
  ⟨"grove.Tree", [("branches", .list (branches.map .message)),
    ("marks", .map [(key, .enum (.named "FIR"))]), ("treeHeight", .double .zero)]⟩

theorem encode_eq_ok_iff_of_ofJson_markedJson :
    (grove .double {}).Resolved ∧ (grove .double {}).Valid ∧
      (grove .double {}).ofJson "grove.Tree" (markedJson "-3" [markedJson "12" []]) =
        .ok (markedTree "-3" [markedTree "12" []]) ∧
      ((∃ bytes, (grove .double {}).encode (markedTree "-3" [markedTree "12" []]) = .ok bytes) ↔
        ∀ kind text, KeyIn (grove .double {}) (groveTree .double)
          (markedTree "-3" [markedTree "12" []]) kind text →
            (keyOfText? kind text).isSome = true) := by
  have hread : (grove .double {}).ofJson "grove.Tree" (markedJson "-3" [markedJson "12" []]) =
      .ok (markedTree "-3" [markedTree "12" []]) := by
    cbv
  exact ⟨resolved_grove_double, valid_grove_double, hread,
    encode_eq_ok_iff_of_ofJson resolved_grove_double valid_grove_double.properties
      valid_grove_double.indexed (by decide +kernel) (by decide +kernel) hread⟩

/-- A mark whose key is no number is read but cannot be written. -/
theorem not_encode_of_ofJson :
    (grove .double {}).Resolved ∧ (grove .double {}).Valid ∧
      (grove .double {}).ofJson "grove.Tree" (markedJson "abc" []) =
        .ok (markedTree "abc" []) ∧
      (grove .double {}).encode (markedTree "abc" []) =
        .error (.invalidValue "grove.Tree.marks" "'abc' is not a valid Sint32 map key") := by
  refine ⟨resolved_grove_double, valid_grove_double, ?_, ?_⟩
  · cbv
  · decide +kernel

end Codec
end ProtoStub
