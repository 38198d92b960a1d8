import Mathlib
import ProtoStub.Proofs.LastMember

/-!
# Tags and the fields that they name

A tag is read as a number of 64 bits, of which 35 are looked at: three for the wire type, and 32
for the field number. Below `tagRange` a tag is therefore accepted exactly if a field number and a
wire type have it, and above it is taken for the tag whose low bits it has
(`splitTag_eq_ok_iff_mod`).

A field gets a value only from a record, and the tag of the record names the field in this sense
(`exists_tag_of_decodeInto`).
-/

namespace ProtoStub.Wire

/-! ## Splitting -/

/-- Tags from here on have more bits than a wire type and a number of 32 bits take. -/
def tagRange : Nat := UInt32.size * 8

/-- A tag is accepted for what its low bits are the tag of. -/
theorem splitTag_eq_ok_iff_mod {tag : UInt64} {number : UInt32} {wireType : WireType} :
    splitTag tag = .ok (number, wireType) ↔
      IsFieldNumber number ∧ tag.toNat % tagRange = number.toNat * 8 + wireType.code := by
  have hlow : tag.toNat % tagRange = tag.toNat / 8 % UInt32.size * 8 + tag.toNat % 8 := by
    rw [tagRange, Nat.mul_comm UInt32.size, Nat.mod_mul]
    omega
  have hcode := wireType.code_lt
  rw [splitTag_eq_ok_iff, ← UInt32.toNat_inj, UInt32.toNat_ofNat', hlow]
  refine and_congr_right fun _ => ?_
  generalize tag.toNat / 8 % UInt32.size = bits
  constructor
  · rintro ⟨hwire, hnumber⟩
    rw [hwire, ← hnumber]
  · intro heq
    constructor <;> omega

/-- A tag is accepted as the tag of a field number and a wire type if it is that tag, and is
accepted as nothing else. -/
def SplitsExactly (tag : UInt64) : Prop :=
  ∀ number wireType, splitTag tag = .ok (number, wireType) ↔
    IsFieldNumber number ∧ tag = tagValue number wireType

theorem eq_tagValue_iff {tag : UInt64} {number : UInt32} {wireType : WireType} :
    tag = tagValue number wireType ↔ tag.toNat = number.toNat * 8 + wireType.code := by
  rw [← UInt64.toNat_inj, tagValue_toNat]

theorem tagValue_lt_tagRange (number : UInt32) (wireType : WireType) :
    (tagValue number wireType).toNat < tagRange := by
  have hnumber := number.toNat_lt
  have hcode := wireType.code_lt
  rw [tagValue_toNat, tagRange, UInt32.size]
  omega

theorem splitsExactly_iff {tag : UInt64} :
    SplitsExactly tag ↔ tag.toNat < tagRange ∨ ∃ e, splitTag tag = .error e := by
  constructor
  · intro h
    cases hsplit : splitTag tag with
    | error e => exact .inr ⟨e, rfl⟩
    | ok found =>
      obtain ⟨-, rfl⟩ := (h found.1 found.2).1 hsplit
      exact .inl (tagValue_lt_tagRange found.1 found.2)
  · rintro (hlt | ⟨e, herror⟩) number wireType
    · rw [splitTag_eq_ok_iff_mod, Nat.mod_eq_of_lt hlt, eq_tagValue_iff]
    · rw [herror]
      constructor
      · rintro ⟨⟩
      · rintro ⟨hnumber, rfl⟩
        rw [splitTag_tagValue hnumber] at herror
        cases herror

/-! ## The tags of records -/

/-- The tag of one of the records that the bytes at a cursor are. Records inside a group or a body
are not among them. -/
inductive HasTag : Cursor → UInt64 → Prop
  | first {c after : Cursor} {tag : UInt64} (read : c.varint = .ok (tag, after)) : HasTag c tag
  | later {c rest : Cursor} {number : UInt32} {tag : UInt64}
      (record : nextRecord c = .ok (number, rest)) (others : HasTag rest tag) : HasTag c tag

theorem exists_tag_of_nextRecord {c rest : Cursor} {number : UInt32}
    (h : nextRecord c = .ok (number, rest)) :
    ∃ tag wireType, HasTag c tag ∧ splitTag tag = .ok (number, wireType) := by
  unfold nextRecord at h
  split at h
  · cases h
  next tag after htag =>
    split at h
    · cases h
    next found wireType hsplit =>
      obtain ⟨_, -, hr⟩ := exists_of_map_eq_ok h
      cases hr
      exact ⟨tag, wireType, .first htag, hsplit⟩

end ProtoStub.Wire

namespace ProtoStub

open Wire

namespace Codec

variable {codec : Codec}

/-- A value that a property has after a record and did not have before is given by the slot of the
record. -/
theorem slot?_of_enter {slots : Slots} {occurrence : Occurrence} {m next : Message} {name : String}
    {v : Value} (hread : Reads codec slots occurrence) (h : codec.enter m occurrence = .ok next)
    (hv : next.get? name = some v) (hnew : m.get? name ≠ some v) :
    ∃ slot, occurrence.slot? = some slot ∧ slot.name = name := by
  rcases exists_store_of_enter hread h with ⟨-, rfl⟩ | ⟨slot, value, hslot, rfl, -⟩
  · exact absurd hv hnew
  · refine ⟨slot, hslot, ?_⟩
    rw [Slot.get?_store_eq] at hv
    by_contra hname
    rw [if_neg hname] at hv
    split at hv
    · cases hv
    · exact hnew hv

/-- A value that a property has after a run and did not have before comes from a record whose tag
names a slot of the property. -/
theorem exists_slot_of_decodeInto {slots : Slots} {c : Cursor} {m m' : Message} {name : String}
    {v : Value} (h : codec.decodeInto slots c m = .ok m') (hv : m'.get? name = some v)
    (hnew : m.get? name ≠ some v) :
    ∃ tag number wireType slot, HasTag c tag ∧ splitTag tag = .ok (number, wireType) ∧
      slots number = some slot ∧ slot.name = name := by
  induction hn : c.size using Nat.strongRecOn generalizing c m with
  | _ n ih =>
    subst hn
    by_cases hbytes : c.bytes = []
    · rw [decodeInto_nil codec _ m hbytes] at h
      cases h
      exact absurd hv hnew
    · obtain ⟨occurrence, rest, next, hread, henter, hrest⟩ := exists_step_of_decodeInto hbytes h
      obtain ⟨number, hnext, hslots⟩ := nextRecord_of_readRecord hread
      by_cases hhere : next.get? name = some v
      · obtain ⟨slot, hslot, hname⟩ := slot?_of_enter (reads_of_readRecord hread) henter hhere hnew
        obtain ⟨tag, wireType, htag, hsplit⟩ := exists_tag_of_nextRecord hnext
        exact ⟨tag, number, wireType, slot, htag, hsplit, hslots.trans hslot, hname⟩
      · obtain ⟨tag, number', wireType, slot, htag, hfound⟩ :=
          ih rest.size (readRecord_moved hread).1.size_lt hrest hhere rfl
        exact ⟨tag, number', wireType, slot, .later hnext htag, hfound⟩

/-- A field that gets a value in a run has a record in it. -/
theorem exists_tag_of_decodeInto {decl : MessageDecl} (hnames : decl.DistinctProperties)
    {c : Cursor} {m m' : Message} (h : codec.decodeInto (slotsOf decl) c m = .ok m')
    {field : Field} (hf : field ∈ decl.fields) {v : Value}
    (hv : m'.get? field.info.name = some v) (hnew : m.get? field.info.name ≠ some v) :
    ∃ tag wireType, HasTag c tag ∧ splitTag tag = .ok (field.info.number, wireType) := by
  obtain ⟨tag, number, wireType, slot, htag, hsplit, hslot, hname⟩ :=
    exists_slot_of_decodeInto h hv hnew
  obtain ⟨g, hg, rfl, rfl⟩ := exists_numbered_of_slotsOf hslot
  obtain rfl : g = field := List.inj_on_of_nodup_map hnames hg hf hname
  exact ⟨tag, wireType, htag, hsplit⟩

/-- A tag is accepted for what its low bits are the tag of. So the tags that are accepted for
themselves or not at all are those below `tagRange` and those that are refused. A field gets a value
only where the tag of a record names it in this sense, and below `tagRange` only where the tag is
made of the number of the field and a wire type. The messages inside a message are read by runs of
the same kind. -/
theorem splitTag_exact (tag : UInt64) (codec : Codec) (decl : MessageDecl) :
    (∀ number wireType, splitTag tag = .ok (number, wireType) ↔
      IsFieldNumber number ∧ tag.toNat % tagRange = number.toNat * 8 + wireType.code) ∧
    (SplitsExactly tag ↔ tag.toNat < tagRange ∨ ∃ e, splitTag tag = .error e) ∧
    (decl.DistinctProperties →
      ∀ (c : Cursor) (m m' : Message), codec.decodeInto (slotsOf decl) c m = .ok m' →
        ∀ field ∈ decl.fields, ∀ v, m'.get? field.info.name = some v →
          m.get? field.info.name ≠ some v →
          ∃ (read : UInt64) (wireType : WireType), HasTag c read ∧
            read.toNat % tagRange = field.info.number.toNat * 8 + wireType.code ∧
            (read.toNat < tagRange → read = tagValue field.info.number wireType)) := by
  refine ⟨fun _ _ => splitTag_eq_ok_iff_mod, splitsExactly_iff, ?_⟩
  intro hnames c m m' h field hf v hv hnew
  obtain ⟨read, wireType, hread, hsplit⟩ := exists_tag_of_decodeInto hnames h hf hv hnew
  refine ⟨read, wireType, hread, (splitTag_eq_ok_iff_mod.1 hsplit).2, fun hlt => ?_⟩
  exact ((splitsExactly_iff.2 (.inl hlt) _ _).1 hsplit).2

/-- A tree without branches and marks, which belongs to nobody or has the given owner. -/
def bareTree (owner : List (String × Value)) : Message :=
  ⟨"grove.Tree", [("branches", .list [])] ++ owner ++
    [("marks", .map []), ("treeHeight", .double .zero)]⟩

theorem splitTag_exact_grove :
    (groveTree .double).DistinctProperties ∧
      (grove .double {}).decodeInto (slotsOf (groveTree .double)) (Cursor.start [40, 7])
        (bareTree []) = .ok (bareTree [("club", .int64 7)]) ∧
      ∃ (tag : UInt64) (wireType : WireType), HasTag (Cursor.start [40, 7]) tag ∧
        tag.toNat % tagRange = 5 * 8 + wireType.code ∧
        (tag.toNat < tagRange → tag = tagValue 5 wireType) := by
  have hrun : (grove .double {}).decodeInto (slotsOf (groveTree .double)) (Cursor.start [40, 7])
      (bareTree []) = .ok (bareTree [("club", .int64 7)]) := by
    cbv
  have hclub : Field.plain (groveField "club" "club" 5 .int64 false (some "owner")) ∈
      (groveTree .double).fields := by
    decide +kernel
  have hproperties := valid_grove_double.properties (groveTree .double) (by decide +kernel)
  have habsent : (bareTree []).get? "club" = none := by cbv
  have hclubbed : (bareTree [("club", .int64 7)]).get? "club" = some (.int64 7) := by cbv
  have hnew : (bareTree []).get? "club" ≠ some (.int64 7) := by
    rw [habsent]
    exact (Option.some_ne_none _).symm
  exact ⟨hproperties, hrun,
    (splitTag_exact 40 _ _).2.2 hproperties _ _ _ hrun _ hclub _ hclubbed hnew⟩

/-- The owner of a tree, by a tag that has one bit more than a field number takes. -/
def widerTag : List UInt8 := [168, 128, 128, 128, 128, 1, 7]

/-- A tag that no field number has is accepted, and the value after it goes to a field. -/
theorem not_splitsExactly_widerTag :
    ¬ SplitsExactly 34359738408 ∧
      (Cursor.start widerTag).varint = .ok (34359738408, ⟨6, [7]⟩) ∧
      (∀ wireType, 34359738408 ≠ tagValue 5 wireType) ∧
      (grove .double {}).decode "grove.Tree" widerTag = .ok (bareTree [("club", .int64 7)]) := by
  have hother : ∀ wireType, 34359738408 ≠ tagValue 5 wireType := by
    intro wireType
    cases wireType <;> decide +kernel
  have hsplit : splitTag 34359738408 = .ok (5, .varint) := by rfl
  refine ⟨fun h => ?_, by rfl, hother, by cbv⟩
  exact hother .varint ((h 5 .varint).1 hsplit).2

end Codec
end ProtoStub
