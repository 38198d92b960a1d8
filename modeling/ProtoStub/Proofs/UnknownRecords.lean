import ProtoStub.Proofs.Offsets
import ProtoStub.Proofs.WireValues

/-!
# Unknown records do not count

`Records` is the grammar of a sequence of records. A record is a tag and a value, or a group: an
opening tag, records of whatever numbers, and a closing tag of the same number. Numbers may be
written with more bytes than they need, as long as these are not more than ten.

Where the records have numbers that a type does not declare, a message of the type is read as if
they were not there (`decodeInto_records`). The reader has no recursion for groups, only the number
of groups that are open; that it comes out of a group at its end, and not before or after it, is
`skipGroups_records`, an induction over the grammar for every number of open groups at once.
-/

namespace ProtoStub.Wire

/-! ## The grammar -/

/-- Bytes of seven bits each that write a number, the least significant first. All but the last
have their top bit set. -/
inductive Septets : List UInt8 → Nat → Prop
  | last {b : UInt8} (low : b < 128) : Septets [b] b.toNat
  | more {b : UInt8} {rest : List UInt8} {n : Nat} (high : ¬ b < 128) (others : Septets rest n) :
      Septets (b :: rest) (b.toNat % 128 + 128 * n)

/-- At most ten bytes that write a number, of which 64 bits count. -/
inductive IsVarint : List UInt8 → UInt64 → Prop
  | intro {bytes : List UInt8} {n : Nat} (septets : Septets bytes n) (short : bytes.length ≤ 10) :
      IsVarint bytes (UInt64.ofNat n)

/-- The tag of a record: a number whose low three bits are the wire type and whose next 32 bits are
the field number. -/
structure IsTag (bytes : List UInt8) (number : UInt32) (wireType : WireType) : Prop where
  written : ∃ tag, IsVarint bytes tag ∧ tag.toNat % 8 = wireType.code ∧
    UInt32.ofNat (tag.toNat / 8) = number
  isFieldNumber : IsFieldNumber number

/-- The value of a record that is no group. -/
inductive Payload : WireType → List UInt8 → Prop
  | varint {bytes : List UInt8} {v : UInt64} (written : IsVarint bytes v) : Payload .varint bytes
  | i64 {bytes : List UInt8} (length : bytes.length = 8) : Payload .i64 bytes
  | i32 {bytes : List UInt8} (length : bytes.length = 4) : Payload .i32 bytes
  | len {bytes content : List UInt8} {v : UInt64} (written : IsVarint bytes v)
      (length : v.toNat = content.length) : Payload .len (bytes ++ content)

/-- A sequence of records with the given numbers. Those inside a group are not among them. -/
inductive Records : List UInt32 → List UInt8 → Prop
  | nil : Records [] []
  | value {number : UInt32} {wireType : WireType} {numbers : List UInt32}
      {tag payload rest : List UInt8} (isTag : IsTag tag number wireType)
      (isPayload : Payload wireType payload) (others : Records numbers rest) :
      Records (number :: numbers) (tag ++ payload ++ rest)
  | group {number : UInt32} {inner numbers : List UInt32} {opening body closing rest : List UInt8}
      (opens : IsTag opening number .startGroup) (inside : Records inner body)
      (closes : IsTag closing number .endGroup) (others : Records numbers rest) :
      Records (number :: numbers) (opening ++ body ++ closing ++ rest)

theorem Records.append {numbers numbers' : List UInt32} {bytes bytes' : List UInt8}
    (h : Records numbers bytes) (h' : Records numbers' bytes') :
    Records (numbers ++ numbers') (bytes ++ bytes') := by
  induction h with
  | nil => exact h'
  | value tag payload _ ih =>
    rw [List.append_assoc]
    exact .value tag payload ih
  | group opening body closing _ _ ih =>
    rw [List.append_assoc]
    exact .group opening body closing ih

/-! ## Numbers and tags are read -/

theorem Septets.varintValue_eq {bytes : List UInt8} {n : Nat} (h : Septets bytes n) {limit : Nat}
    (hlimit : bytes.length ≤ limit) (more : List UInt8) :
    varintValue limit (bytes ++ more) = some (n, bytes.length) := by
  induction h generalizing limit with
  | @last b low =>
    cases limit with
    | zero => cases hlimit
    | succ limit => simp [varintValue, low]
  | @more b rest n high _ ih =>
    cases limit with
    | zero => cases hlimit
    | succ limit =>
      rw [List.cons_append, varintValue, if_neg high, ih (by simpa using hlimit)]
      rfl

theorem septets_of_varintValue {limit : Nat} {bytes : List UInt8} {n : Nat}
    (h : varintValue limit bytes = some (n, bytes.length)) :
    Septets bytes n ∧ bytes.length ≤ limit := by
  fun_induction varintValue limit bytes generalizing n with
  | case1 => cases h
  | case2 => cases h
  | case3 limit b rest hb =>
    simp only [Option.some.injEq, Prod.mk.injEq, List.length_cons] at h
    obtain rfl : rest = [] := List.eq_nil_of_length_eq_zero (by omega)
    rw [← h.1]
    exact ⟨.last hb, by simp⟩
  | case4 limit b rest hb ih =>
    obtain ⟨⟨k, used⟩, hrest, hr⟩ := Option.map_eq_some_iff.1 h
    simp only [Prod.mk.injEq, List.length_cons, Nat.add_right_cancel_iff] at hr
    obtain ⟨rfl, rfl⟩ := hr
    obtain ⟨hseptets, hlength⟩ := ih hrest
    exact ⟨.more hb hseptets, by simpa using hlength⟩

theorem IsVarint.varint?_eq {bytes : List UInt8} {v : UInt64} (h : IsVarint bytes v) (offset : Nat)
    (more : List UInt8) : (⟨offset, bytes ++ more⟩ : Cursor).varint? =
      some (v, ⟨offset + bytes.length, more⟩) := by
  obtain ⟨septets, short⟩ := h
  simp only [Cursor.varint?, decodeVarint, septets.varintValue_eq short, varintLimit,
    Option.map_some, Cursor.advance_append]

theorem isVarint_encodeVarint (v : UInt64) : IsVarint (encodeVarint v) v := by
  obtain ⟨⟨n, used⟩, hvalue, hr⟩ := Option.map_eq_some_iff.1 (decodeVarint_encodeVarint v)
  simp only [Prod.mk.injEq] at hr
  obtain ⟨rfl, rfl⟩ := hr
  obtain ⟨hseptets, hlength⟩ := septets_of_varintValue hvalue
  exact .intro hseptets hlength

theorem IsVarint.ne_nil {bytes : List UInt8} {v : UInt64} (h : IsVarint bytes v) : bytes ≠ [] := by
  obtain ⟨septets, -⟩ := h
  cases septets <;> simp

/-- A tag is there, and is read for what it is. -/
theorem IsTag.exists_tag {bytes : List UInt8} {number : UInt32} {wireType : WireType}
    (h : IsTag bytes number wireType) :
    ∃ tag, IsVarint bytes tag ∧ splitTag tag = .ok (number, wireType) := by
  obtain ⟨⟨tag, hvarint, hcode, hbits⟩, hnumber⟩ := h
  exact ⟨tag, hvarint, splitTag_eq_ok_iff.2 ⟨hnumber, hcode, hbits⟩⟩

theorem isTag_encodeTag {number : UInt32} (h : IsFieldNumber number) (wireType : WireType) :
    IsTag (encodeTag number wireType) number wireType := by
  refine ⟨⟨tagValue number wireType, isVarint_encodeVarint _, ?_, ?_⟩, h⟩
  · have := wireType.code_lt
    rw [tagValue_toNat]
    omega
  · have := wireType.code_lt
    rw [tagValue_toNat, show (number.toNat * 8 + wireType.code) / 8 = number.toNat by omega,
      UInt32.ofNat_toNat]

/-! ## Records are passed over -/

theorem Payload.skipValue_eq {wireType : WireType} {payload : List UInt8}
    (h : Payload wireType payload) (position offset : Nat) (more : List UInt8) :
    skipValue wireType position ⟨offset, payload ++ more⟩ =
      .ok ⟨offset + payload.length, more⟩ := by
  have hsize : ¬ (⟨offset, payload ++ more⟩ : Cursor).size < payload.length := by
    simp [Cursor.size]
  have hadvance := Cursor.advance_append offset payload more
  cases h with
  | varint written => simp only [skipValue, written.varint?_eq]
  | i64 length | i32 length =>
    rw [length] at hsize hadvance
    rw [skipValue, if_neg hsize, hadvance, length]
  | @len bytes content v written length =>
    have hsize' : ¬ (⟨offset + bytes.length, content ++ more⟩ : Cursor).size < v.toNat := by
      simp [Cursor.size, length]
    rw [List.append_assoc, skipValue, written.varint?_eq]
    simp only [if_neg hsize']
    rw [length, Cursor.advance_append, List.length_append, Nat.add_assoc]

theorem skipRecord_eq {tag payload more : List UInt8} {number : UInt32} {wireType : WireType}
    (htag : IsTag tag number wireType)
    (hvalue : ∀ position offset, skipValue wireType position ⟨offset, payload ++ more⟩ =
      .ok ⟨offset + payload.length, more⟩) (origin offset : Nat) :
    skipRecord origin ⟨offset, tag ++ payload ++ more⟩ =
      .ok (number, ⟨offset + (tag ++ payload).length, more⟩) := by
  obtain ⟨v, hvarint, hsplit⟩ := htag.exists_tag
  have hne : ¬ (tag ++ payload ++ more).isEmpty = true := by simp [hvarint.ne_nil]
  rw [skipRecord, if_neg hne, List.append_assoc, hvarint.varint?_eq]
  simp only [hsplit, hvalue, List.length_append, Nat.add_assoc]

/-- How many groups are open after a record of a wire type. -/
def WireType.openAfter (wireType : WireType) (depth : Nat) : Nat :=
  match wireType with
  | .startGroup => depth + 2
  | .endGroup => depth
  | _ => depth + 1

theorem skipGroups_eq {tag payload more : List UInt8} {number : UInt32} {wireType : WireType}
    (htag : IsTag tag number wireType)
    (hvalue : ∀ position offset, skipValue wireType position ⟨offset, payload ++ more⟩ =
      .ok ⟨offset + payload.length, more⟩) (origin : Nat) (outer : UInt32) (depth offset : Nat) :
    skipGroups origin outer (depth + 1) ⟨offset, tag ++ payload ++ more⟩ =
      skipGroups origin outer (wireType.openAfter depth)
        ⟨offset + (tag ++ payload).length, more⟩ := by
  obtain ⟨v, hvarint, hsplit⟩ := htag.exists_tag
  have hne : ¬ (tag ++ payload ++ more).isEmpty = true := by simp [hvarint.ne_nil]
  have hrecord := skipRecord_eq htag hvalue origin offset
  have htagRead := hvarint.varint?_eq offset (payload ++ more)
  rw [← List.append_assoc] at htagRead
  rw [skipGroups, if_neg hne, htagRead]
  simp only [hsplit]
  split
  next e he =>
    rw [hrecord] at he
    cases he
  next he =>
    rw [hrecord] at he
    cases he
    cases wireType <;> rfl

/-- A marker of a group is a tag without a value. -/
theorem skipGroups_marker {tag more : List UInt8} {number : UInt32} {wireType : WireType}
    (htag : IsTag tag number wireType) (hmarker : wireType = .startGroup ∨ wireType = .endGroup)
    (origin : Nat) (outer : UInt32) (depth offset : Nat) :
    skipGroups origin outer (depth + 1) ⟨offset, tag ++ more⟩ =
      skipGroups origin outer (wireType.openAfter depth) ⟨offset + tag.length, more⟩ := by
  have hvalue : ∀ position offset, skipValue wireType position ⟨offset, [] ++ more⟩ =
      .ok ⟨offset + ([] : List UInt8).length, more⟩ := by
    intro position offset
    rcases hmarker with rfl | rfl <;> rfl
  simpa using skipGroups_eq htag hvalue origin outer depth offset

/-- Records inside a group leave as many groups open as there were. -/
theorem skipGroups_records {numbers : List UInt32} {bytes : List UInt8} (h : Records numbers bytes)
    (origin : Nat) (outer : UInt32) (depth offset : Nat) (more : List UInt8) :
    skipGroups origin outer (depth + 1) ⟨offset, bytes ++ more⟩ =
      skipGroups origin outer (depth + 1) ⟨offset + bytes.length, more⟩ := by
  induction h generalizing depth offset more with
  | nil => rfl
  | @value number wireType numbers tag payload rest htag hpayload _ ih =>
    have hdepth : wireType.openAfter depth = depth + 1 := by cases hpayload <;> rfl
    rw [List.append_assoc _ rest, skipGroups_eq htag (hpayload.skipValue_eq · · _), hdepth, ih]
    simp only [List.length_append, Nat.add_assoc]
  | @group number inner numbers opening body closing rest hopening _ hclosing _ ihBody ihRest =>
    have hbytes : opening ++ body ++ closing ++ rest ++ more =
        opening ++ (body ++ (closing ++ (rest ++ more))) := by simp only [List.append_assoc]
    rw [hbytes, skipGroups_marker hopening (.inl rfl), WireType.openAfter, ihBody,
      skipGroups_marker hclosing (.inr rfl), WireType.openAfter, ihRest]
    simp only [List.length_append, Nat.add_assoc]

theorem skipUnknown_payload {tag payload : List UInt8} {number : UInt32} {wireType : WireType}
    (htag : IsTag tag number wireType) (hpayload : Payload wireType payload) (offset : Nat)
    (more : List UInt8) :
    skipUnknown number wireType ⟨offset, tag ++ payload ++ more⟩ =
      .ok ⟨offset + (tag ++ payload).length, more⟩ := by
  rw [skipUnknown, skipRecord_eq htag (hpayload.skipValue_eq · · more)]
  cases hpayload <;> rfl

theorem skipUnknown_group {opening body closing : List UInt8} {number : UInt32}
    {inner : List UInt32} (hopening : IsTag opening number .startGroup)
    (hbody : Records inner body) (hclosing : IsTag closing number .endGroup) (offset : Nat)
    (more : List UInt8) :
    skipUnknown number .startGroup ⟨offset, opening ++ body ++ closing ++ more⟩ =
      .ok ⟨offset + (opening ++ body ++ closing).length, more⟩ := by
  have hbytes : opening ++ body ++ closing ++ more =
      opening ++ [] ++ (body ++ (closing ++ more)) := by simp
  rw [hbytes, skipUnknown, skipRecord_eq hopening fun _ _ => rfl]
  simp only
  rw [skipGroups_records hbody, skipGroups_marker hclosing (.inr rfl), WireType.openAfter,
    skipGroups]
  simp [Nat.add_assoc]

end ProtoStub.Wire

namespace ProtoStub.Codec

open Wire

/-! ## Messages with unknown records -/

theorem readRecord_unknown {tag rest : List UInt8} {number : UInt32} {wireType : WireType}
    (htag : IsTag tag number wireType) {slots : Slots} (hslot : slots number = none)
    (codec : Codec) {offset : Nat} {after : Cursor}
    (hskip : skipUnknown number wireType ⟨offset, tag ++ rest⟩ = .ok after) :
    codec.readRecord slots ⟨offset, tag ++ rest⟩ = .ok (.unknown, after) := by
  obtain ⟨v, hvarint, hsplit⟩ := htag.exists_tag
  simp only [readRecord, Cursor.varint, hvarint.varint?_eq, hsplit, hslot, hskip]
  rfl

theorem decodeInto_unknown {tag rest : List UInt8} {number : UInt32} {wireType : WireType}
    (htag : IsTag tag number wireType) {slots : Slots} (hslot : slots number = none)
    (codec : Codec) {offset : Nat} {after : Cursor}
    (hskip : skipUnknown number wireType ⟨offset, tag ++ rest⟩ = .ok after) (m : Message) :
    codec.decodeInto slots ⟨offset, tag ++ rest⟩ m = codec.decodeInto slots after m := by
  obtain ⟨v, hvarint, -⟩ := htag.exists_tag
  have hne : (⟨offset, tag ++ rest⟩ : Cursor).bytes ≠ [] := by simp [hvarint.ne_nil]
  rw [decodeInto_eq codec slots m hne, readRecord_unknown htag hslot codec hskip]
  rfl

/-- A run goes on behind records that it does not know as if they had not been there. -/
theorem decodeInto_records {numbers : List UInt32} {bytes : List UInt8} (h : Records numbers bytes)
    {slots : Slots} (hslots : ∀ number ∈ numbers, slots number = none) (codec : Codec)
    (offset : Nat) (more : List UInt8) (m : Message) :
    codec.decodeInto slots ⟨offset, bytes ++ more⟩ m =
      codec.decodeInto slots ⟨offset + bytes.length, more⟩ m := by
  induction h generalizing offset with
  | nil => rfl
  | @value number wireType numbers tag payload rest htag hpayload _ ih =>
    obtain ⟨hslot, hslots⟩ := List.forall_mem_cons.1 hslots
    have hskip := skipUnknown_payload htag hpayload offset (rest ++ more)
    rw [List.append_assoc] at hskip
    rw [List.append_assoc, List.append_assoc, decodeInto_unknown htag hslot codec hskip, ih hslots]
    simp only [List.length_append, Nat.add_assoc]
  | @group number inner numbers opening body closing rest hopening hbody hclosing _ _ ih =>
    obtain ⟨hslot, hslots⟩ := List.forall_mem_cons.1 hslots
    have hskip := skipUnknown_group hopening hbody hclosing offset (rest ++ more)
    simp only [List.append_assoc] at hskip ⊢
    rw [decodeInto_unknown hopening hslot codec hskip, ih hslots]
    simp only [List.length_append, Nat.add_assoc]

theorem slotsOf_eq_none {decl : MessageDecl} {number : UInt32}
    (h : ∀ field ∈ decl.fields, field.info.number ≠ number) : slotsOf decl number = none := by
  have hfind : decl.fieldByNumber? number = none :=
    List.find?_eq_none.2 fun field hfield => by simpa using h field hfield
  simp only [slotsOf, hfind, Option.map_none]

/-- A group that holds a record and a group of a number that the type declares, and a body. Tags
and lengths are written with more bytes than they need. -/
def strayBytes : List UInt8 :=
  [0x93, 0x80, 0x00] ++
    (encodeTag 1 .varint ++ [0xFF, 0x01] ++
      (encodeTag 1 .startGroup ++ [] ++ encodeTag 1 .endGroup ++ [])) ++
    encodeTag 2 .endGroup ++
    (encodeTag 3 .len ++ ([0x82, 0x00] ++ [0xFF, 0xFF]) ++ [])

theorem records_strayBytes : Records [2, 3] strayBytes := by
  have hopening : IsTag [0x93, 0x80, 0x00] 2 .startGroup :=
    ⟨⟨_, .intro (.more (by decide) (.more (by decide) (.last (by decide)))) (by decide),
      by decide, by decide⟩, by decide⟩
  have hinside : Records [1, 1] (encodeTag 1 .varint ++ [0xFF, 0x01] ++
      (encodeTag 1 .startGroup ++ [] ++ encodeTag 1 .endGroup ++ [])) :=
    .value (isTag_encodeTag (by decide) .varint)
      (.varint (.intro (.more (by decide) (.last (by decide))) (by decide)))
      (.group (isTag_encodeTag (by decide) .startGroup) .nil
        (isTag_encodeTag (by decide) .endGroup) .nil)
  refine .group hopening hinside (isTag_encodeTag (by decide) .endGroup) ?_
  refine .value (isTag_encodeTag (by decide) .len) ?_ .nil
  exact .len (.intro (.more (by decide) (.last (by decide))) (by decide)) (by decide)

end ProtoStub.Codec
