import ProtoStub.Codec.Encode
import ProtoStub.Proofs.UnknownRecords

/-!
# What is written is made of records

Whatever a field holds, the bytes that are written of it are records of the number of the field
(`fieldRecords_ofNumber`). Nothing is asked of the value but that it was written, and of the bytes
that there are fewer than 2^64, so that no length was cut.
-/

namespace ProtoStub.Codec

open Wire

variable {codec : Codec} {number : UInt32}

/-- A sequence of records that all have the same number. -/
def OfNumber (number : UInt32) (bytes : List UInt8) : Prop :=
  ∃ numbers, Records numbers bytes ∧ ∀ n ∈ numbers, n = number

theorem OfNumber.nil : OfNumber number [] := ⟨[], .nil, by simp⟩

theorem OfNumber.append {bytes bytes' : List UInt8} (h : OfNumber number bytes)
    (h' : OfNumber number bytes') : OfNumber number (bytes ++ bytes') := by
  obtain ⟨numbers, hrecords, hnumbers⟩ := h
  obtain ⟨numbers', hrecords', hnumbers'⟩ := h'
  refine ⟨numbers ++ numbers', hrecords.append hrecords', fun n hn => ?_⟩
  rcases List.mem_append.1 hn with hn | hn
  · exact hnumbers n hn
  · exact hnumbers' n hn

theorem ofNumber_record (hnumber : IsFieldNumber number) {wireType : WireType}
    {payload : List UInt8} (hpayload : Payload wireType payload) :
    OfNumber number (encodeTag number wireType ++ payload) := by
  have h := Records.value (isTag_encodeTag hnumber wireType) hpayload .nil
  rw [List.append_nil] at h
  exact ⟨[number], h, by simp⟩

/-! ## Values -/

theorem payload_lengthPrefixed {body : List UInt8}
    (h : (lengthPrefixed body).length < UInt64.size) : Payload .len (lengthPrefixed body) := by
  have hshort : body.length < UInt64.size := by
    rw [lengthPrefixed, List.length_append] at h
    omega
  exact .len (isVarint_encodeVarint _) (UInt64.toNat_ofNat_of_lt' hshort)

theorem ofNumber_bodyRecord (hnumber : IsFieldNumber number) {body : List UInt8}
    (h : (bodyRecord number body).length < UInt64.size) :
    OfNumber number (bodyRecord number body) := by
  rw [bodyRecord, List.length_append] at h
  exact ofNumber_record hnumber (payload_lengthPrefixed (by omega))

theorem payload_scalarBytes {v : Value} {kind : FieldKind} {path : String} {bs : List UInt8}
    (h : codec.scalarBytes v kind path = .ok bs) (hlen : bs.length < UInt64.size) :
    Payload kind.wireType bs := by
  unfold scalarBytes at h
  split at h
  case h_1 | h_10 | h_12 =>
    cases h
    exact .i64 (length_littleEndian 8 _)
  case h_2 | h_9 | h_11 =>
    cases h
    exact .i32 (length_littleEndian 4 _)
  case h_14 | h_15 =>
    cases h
    exact payload_lengthPrefixed hlen
  case h_16 =>
    split at h
    · cases h
    · cases h
      exact .varint (isVarint_encodeVarint _)
  case h_17 => cases h
  all_goals
    cases h
    exact .varint (isVarint_encodeVarint _)

/-- A single value is written as the payload of its kind. -/
theorem payload_write {v : Value} {kind : FieldKind} {path : String} {bs : List UInt8}
    (h : (v.view codec.valueBytes).write kind path = .ok bs) (hlen : bs.length < UInt64.size) :
    Payload kind.wireType bs := by
  have hview : ∃ views, (v.view codec.valueBytes).write = codec.valueBytes v views := by
    cases v with
    | message m =>
      obtain ⟨typeName, fields⟩ := m
      exact ⟨_, rfl⟩
    | _ => exact ⟨_, rfl⟩
  obtain ⟨views, hview⟩ := hview
  rw [hview] at h
  unfold valueBytes at h
  split at h
  · split at h
    · cases h
    · obtain ⟨body, -, rfl⟩ := exists_of_map_eq_ok h
      exact payload_lengthPrefixed hlen
  · exact payload_scalarBytes h hlen

theorem valueRecord_ofNumber {v : Value} {info : FieldInfo} {path : String} {bs : List UInt8}
    (hnumber : IsFieldNumber info.number)
    (h : valueRecord (v.view codec.valueBytes).write info path = .ok bs)
    (hlen : bs.length < UInt64.size) : OfNumber info.number bs := by
  unfold valueRecord at h
  split at h
  · cases h
  next body hbody =>
    cases h
    rw [List.length_append] at hlen
    exact ofNumber_record hnumber (payload_write hbody (by omega))

/-! ## Fields -/

theorem itemRecords_ofNumber {items : List Value} {info : FieldInfo} {path : String}
    (hnumber : IsFieldNumber info.number) {bs : List UInt8}
    (h : itemRecords info path (items.map fun v => (v.view codec.valueBytes).write) = .ok bs)
    (hlen : bs.length < UInt64.size) : OfNumber info.number bs := by
  induction items generalizing bs with
  | nil =>
    cases h
    exact .nil
  | cons v rest ih =>
    rw [List.map_cons, itemRecords] at h
    split at h
    · cases h
    next first hfirst =>
      split at h
      · cases h
      next more hmore =>
        cases h
        rw [List.length_append] at hlen
        exact (valueRecord_ofNumber hnumber hfirst (by omega)).append (ih hmore (by omega))

theorem entryRecords_ofNumber (hnumber : IsFieldNumber number) {key value : FieldInfo}
    {path : String} {entries : List (String × Writer (List UInt8))} {bs : List UInt8}
    (h : codec.entryRecords number key value path entries = .ok bs)
    (hlen : bs.length < UInt64.size) : OfNumber number bs := by
  induction entries generalizing bs with
  | nil =>
    cases h
    exact .nil
  | cons p rest ih =>
    rw [entryRecords] at h
    split at h
    · cases h
    next entry hentry =>
      split at h
      · cases h
      next more hmore =>
        cases h
        rw [List.length_append] at hlen
        exact (ofNumber_bodyRecord hnumber (by omega)).append (ih hmore (by omega))

theorem listRecords_ofNumber {items : List Value} {info : FieldInfo} {path : String}
    (hnumber : IsFieldNumber info.number) {bs : List UInt8}
    (h : listRecords info path (items.map fun v => (v.view codec.valueBytes).write) = .ok bs)
    (hlen : bs.length < UInt64.size) : OfNumber info.number bs := by
  unfold listRecords at h
  split at h
  · cases h
    exact .nil
  · split at h
    · obtain ⟨body, -, rfl⟩ := exists_of_map_eq_ok h
      exact ofNumber_bodyRecord hnumber hlen
    · exact itemRecords_ofNumber hnumber h hlen

/-- What is written of a field is a sequence of records of its number. -/
theorem fieldRecords_ofNumber {v : Value} {field : Field} {path : String} {bs : List UInt8}
    (hnumber : IsFieldNumber field.info.number)
    (h : codec.fieldRecords field path (v.view codec.valueBytes) = .ok bs)
    (hlen : bs.length < UInt64.size) : OfNumber field.info.number bs := by
  cases field with
  | map info key value =>
    simp only [fieldRecords] at h
    split at h
    · exact entryRecords_ofNumber hnumber h hlen
    · cases h
  | plain info =>
    simp only [fieldRecords] at h
    split at h
    · split at h
      next items hitems =>
        rw [Value.view_value] at hitems
        subst hitems
        simp only [Value.view, Value.writers_eq_map] at h
        exact listRecords_ofNumber hnumber h hlen
      · cases h
    · unfold singleRecord at h
      split at h
      · split at h
        · cases h
        · cases h
          exact .nil
        · exact valueRecord_ofNumber hnumber h hlen
      · exact valueRecord_ofNumber hnumber h hlen

end ProtoStub.Codec
