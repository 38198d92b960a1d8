import ProtoStub.Envelope.RecordType
import ProtoStub.Text.Utf8
import ProtoStub.Wire.Scalar

/-
  Reading records. What is read is kept under its number in the order in which it comes.
  Records may be nested only so deep; what is not known is passed over, within the same
  limit. Integers must fit into 64 bits, and texts must be well formed.
-/

namespace ProtoStub.Envelope

open Wire

/-- What is found under a number. -/
inductive Item where
  | integer (v : UInt64)
  | word64 (v : UInt64)
  | text (s : String)
  | bytes (bs : List UInt8)
  | record (items : List (Nat × Item))

/-- The items of a record, each with its number. -/
abbrev Items : Type := List (Nat × Item)

/-- How deep records may be nested. -/
def depthLimit : Nat := 100

/-- Reads an integer of at most 64 bits. -/
def integer? (c : Cursor) : Option (UInt64 × Cursor) :=
  match varintValue varintLimit c.bytes with
  | some (n, used) => if n < UInt64.size then some (UInt64.ofNat n, c.advance used) else none
  | none => none

/-- Reads as many bytes. -/
def span? (c : Cursor) (count : Nat) : Option (Cursor × Cursor) :=
  if count ≤ c.size then some (c.window count, c.advance count) else none

/-- Reads a length and as many bytes. -/
def body? (c : Cursor) : Option (Cursor × Cursor) :=
  match integer? c with
  | none => none
  | some (length, rest) => span? rest length.toNat

/-- Reads a tag: a number and a wire type in 32 bits. -/
def tag? (c : Cursor) : Option (Nat × WireType × Cursor) :=
  match integer? c with
  | none => none
  | some (tag, rest) =>
    match WireType.ofCode (tag.toNat % 8) with
    | .error _ => none
    | .ok wireType =>
      if tag.toNat < UInt32.size ∧ 8 ≤ tag.toNat then some (tag.toNat / 8, wireType, rest) else none

/-- Passes over a value that is no group. -/
def passValue? (wireType : WireType) (c : Cursor) : Option Cursor :=
  match wireType with
  | .varint => (integer? c).map (·.2)
  | .i64 => (span? c 8).map (·.2)
  | .i32 => (span? c 4).map (·.2)
  | .len => (body? c).map (·.2)
  | .startGroup | .endGroup => none

theorem integer?_size {c rest : Cursor} {v : UInt64} (h : integer? c = some (v, rest)) :
    rest.size < c.size := by
  unfold integer? at h
  split at h
  next n used hn =>
    split at h
    · obtain ⟨-, rfl⟩ := Prod.mk.inj (Option.some.inj h)
      have : 1 ≤ used ∧ used ≤ c.size := varintValue_used hn
      rw [Cursor.size_advance]
      omega
    · simp at h
  · simp at h

theorem span?_size {c inner rest : Cursor} {count : Nat} (h : span? c count = some (inner, rest)) :
    inner.size ≤ c.size ∧ rest.size = c.size - count ∧ count ≤ c.size := by
  unfold span? at h
  split at h
  next hc =>
    obtain ⟨rfl, rfl⟩ := Prod.mk.inj (Option.some.inj h)
    rw [Cursor.size_window, Cursor.size_advance]
    omega
  · simp at h

theorem body?_size {c inner rest : Cursor} (h : body? c = some (inner, rest)) :
    inner.size < c.size ∧ rest.size < c.size := by
  unfold body? at h
  split at h
  · simp at h
  next hv =>
    have := integer?_size hv
    have := span?_size h
    omega

theorem tag?_size {c rest : Cursor} {number : Nat} {wireType : WireType}
    (h : tag? c = some (number, wireType, rest)) : rest.size < c.size := by
  unfold tag? at h
  split at h
  · simp at h
  next hv =>
    split at h
    · simp at h
    · split at h
      · obtain ⟨-, -, rfl⟩ : _ ∧ _ ∧ _ = rest := by simpa using h
        exact integer?_size hv
      · simp at h

theorem passValue?_size {wireType : WireType} {c rest : Cursor}
    (h : passValue? wireType c = some rest) : rest.size < c.size := by
  unfold passValue? at h
  split at h
  · obtain ⟨r, hr, rfl⟩ := Option.map_eq_some_iff.1 h
    exact integer?_size hr
  · obtain ⟨r, hr, rfl⟩ := Option.map_eq_some_iff.1 h
    have := span?_size hr
    omega
  · obtain ⟨r, hr, rfl⟩ := Option.map_eq_some_iff.1 h
    have := span?_size hr
    omega
  · obtain ⟨r, hr, rfl⟩ := Option.map_eq_some_iff.1 h
    exact (body?_size hr).2
  · simp at h
  · simp at h

/-- Passes over one tag inside open groups, and over its value if it has one, and gives the
groups that are open then. No more than `limit` of them may be open around a value. -/
def passStep? (limit innermost : Nat) (outer : List Nat) (c : Cursor) :
    Option (List Nat × Cursor) :=
  match tag? c with
  | none => none
  | some (number, wireType, rest) =>
    if wireType = .endGroup then if number = innermost then some (outer, rest) else none
    else if limit ≤ outer.length + 1 then none
    else if wireType = .startGroup then some (number :: innermost :: outer, rest)
    else (passValue? wireType rest).map (innermost :: outer, ·)

theorem passStep?_size {limit innermost : Nat} {outer groups : List Nat} {c rest : Cursor}
    (h : passStep? limit innermost outer c = some (groups, rest)) : rest.size < c.size := by
  unfold passStep? at h
  split at h
  · simp at h
  next ht =>
    have := tag?_size ht
    split at h
    · split at h
      · rwa [← (Prod.mk.inj (Option.some.inj h)).2]
      · simp at h
    · split at h
      · simp at h
      · split at h
        · rwa [← (Prod.mk.inj (Option.some.inj h)).2]
        · obtain ⟨after, hv, he⟩ := Option.map_eq_some_iff.1 h
          have := passValue?_size hv
          rw [← (Prod.mk.inj he).2]
          omega

/-- Passes over what is left of the open groups, the innermost first. -/
def passGroups? (limit : Nat) (groups : List Nat) (c : Cursor) : Option Cursor :=
  match groups with
  | [] => some c
  | innermost :: outer =>
    match h : passStep? limit innermost outer c with
    | none => none
    | some (groups, rest) =>
      have : rest.size < c.size := passStep?_size h
      passGroups? limit groups rest
termination_by c.size

theorem passGroups?_size {limit : Nat} {groups : List Nat} {c rest : Cursor}
    (h : passGroups? limit groups c = some rest) : rest.size ≤ c.size := by
  fun_induction passGroups? limit groups c with
  | case1 c => exact Nat.le_of_eq (by rw [Option.some.inj h])
  | case2 => simp at h
  | case3 c innermost outer groups after hs hlt ih =>
    have := ih h
    omega

/-- Passes over a value under a number that is not known. -/
def pass? (limit : Nat) (number : Nat) (wireType : WireType) (c : Cursor) : Option Cursor :=
  if limit = 0 then none
  else if wireType = .startGroup then passGroups? limit [number] c
  else passValue? wireType c

theorem pass?_size {limit number : Nat} {wireType : WireType} {before c rest : Cursor}
    (hc : c.size < before.size) (h : pass? limit number wireType c = some rest) :
    rest.size < before.size := by
  unfold pass? at h
  split at h
  · simp at h
  · split at h
    · have := passGroups?_size h
      omega
    · have := passValue?_size h
      omega

/-- Reads integers that fill a body. -/
def integers? (c : Cursor) : Option (List UInt64) :=
  if c.bytes.isEmpty then some []
  else
    match h : integer? c with
    | none => none
    | some (v, rest) =>
      have : rest.size < c.size := integer?_size h
      (integers? rest).map (v :: ·)
termination_by c.size

/-- A part of a record: items, or the body of a nested record, and what follows. -/
inductive Part where
  | items (items : Items) (rest : Cursor)
  | nested (number : Nat) (type : RecordType) (content rest : Cursor)

/-- Reads the value of a known slot. -/
def readSlot? (limit number : Nat) (slot : Slot) (wireType : WireType) (c : Cursor) :
    Option Part :=
  match slot, wireType with
  | .text, .len =>
    (body? c).bind fun r =>
      (Text.utf8Decode r.1.bytes).toOption.map fun s => .items [(number, .text s)] r.2
  | .bytes, .len => (body? c).map fun r => .items [(number, .bytes r.1.bytes)] r.2
  | .integer, .varint => (integer? c).map fun r => .items [(number, .integer r.1)] r.2
  | .integers, .varint => (integer? c).map fun r => .items [(number, .integer r.1)] r.2
  | .integers, .len =>
    (body? c).bind fun r =>
      (integers? r.1).map fun vs => .items (vs.map fun v => (number, .integer v)) r.2
  | .word64, .i64 =>
    (span? c 8).map fun r =>
      .items [(number, .word64 (UInt64.ofNat (ofLittleEndian r.1.bytes)))] r.2
  | .record type, .len =>
    if limit = 0 then none else (body? c).map fun r => .nested number type r.1 r.2
  | _, _ => none

/-- Reads a part of a record. -/
def readPart? (type : RecordType) (limit : Nat) (c : Cursor) : Option Part :=
  match tag? c with
  | none => none
  | some (number, wireType, rest) =>
    match type.slot? number with
    | none => (pass? limit number wireType rest).map (.items [])
    | some slot => readSlot? limit number slot wireType rest

/-- Whether what a part leaves to be read is shorter than what was there. -/
def Part.Shorter (part : Part) (c : Cursor) : Prop :=
  match part with
  | .items _ rest => rest.size < c.size
  | .nested _ _ content rest => content.size < c.size ∧ rest.size < c.size

theorem readSlot?_shorter {limit number : Nat} {slot : Slot} {wireType : WireType} {c : Cursor}
    {part : Part} (h : readSlot? limit number slot wireType c = some part) : part.Shorter c := by
  unfold readSlot? at h
  split at h
  · obtain ⟨r, hr, h⟩ := Option.bind_eq_some_iff.1 h
    obtain ⟨s, _, rfl⟩ := Option.map_eq_some_iff.1 h
    exact (body?_size hr).2
  · obtain ⟨r, hr, rfl⟩ := Option.map_eq_some_iff.1 h
    exact (body?_size hr).2
  · obtain ⟨r, hr, rfl⟩ := Option.map_eq_some_iff.1 h
    exact integer?_size hr
  · obtain ⟨r, hr, rfl⟩ := Option.map_eq_some_iff.1 h
    exact integer?_size hr
  · obtain ⟨r, hr, h⟩ := Option.bind_eq_some_iff.1 h
    obtain ⟨vs, _, rfl⟩ := Option.map_eq_some_iff.1 h
    exact (body?_size hr).2
  · obtain ⟨r, hr, rfl⟩ := Option.map_eq_some_iff.1 h
    have := span?_size hr
    simp only [Part.Shorter]
    omega
  · split at h
    · simp at h
    · obtain ⟨r, hr, rfl⟩ := Option.map_eq_some_iff.1 h
      exact body?_size hr
  · simp at h

theorem Part.Shorter.of_lt {part : Part} {c before : Cursor} (h : part.Shorter c)
    (hc : c.size < before.size) : part.Shorter before := by
  cases part <;> simp only [Part.Shorter] at h ⊢ <;> omega

theorem readPart?_shorter {type : RecordType} {limit : Nat} {c : Cursor} {part : Part}
    (h : readPart? type limit c = some part) : part.Shorter c := by
  unfold readPart? at h
  split at h
  · simp at h
  next ht =>
    have := tag?_size ht
    split at h
    · obtain ⟨rest, hr, rfl⟩ := Option.map_eq_some_iff.1 h
      exact pass?_size this hr
    · exact (readSlot?_shorter h).of_lt this

/-- Reads the items of a record of a type, in which `limit` further levels may be nested. -/
def readItems? (type : RecordType) (limit : Nat) (c : Cursor) : Option Items :=
  if c.bytes.isEmpty then some []
  else
    match h : readPart? type limit c with
    | none => none
    | some (.items items rest) =>
      have : rest.size < c.size := readPart?_shorter h
      (readItems? type limit rest).map (items ++ ·)
    | some (.nested number inner content rest) =>
      have : content.size < c.size ∧ rest.size < c.size := readPart?_shorter h
      match readItems? inner (limit - 1) content with
      | none => none
      | some items =>
        (readItems? type limit rest).map ((number, .record items) :: ·)
termination_by c.size

namespace Items

/-- The integers under a number. -/
def integers (items : Items) (number : Nat) : List UInt64 :=
  items.filterMap fun
    | (n, .integer v) => if n = number then some v else none
    | _ => none

/-- The texts under a number. -/
def texts (items : Items) (number : Nat) : List String :=
  items.filterMap fun
    | (n, .text s) => if n = number then some s else none
    | _ => none

/-- The records under a number. -/
def records (items : Items) (number : Nat) : List Items :=
  items.filterMap fun
    | (n, .record inner) => if n = number then some inner else none
    | _ => none

/-- The text under a number; the last one counts. -/
def text? (items : Items) (number : Nat) : Option String := (texts items number).getLast?

/-- The text under a number, empty if there is none. -/
def text (items : Items) (number : Nat) : String := (text? items number).getD ""

/-- The low 32 bits of an integer. -/
def low32 (v : UInt64) : Int32 := Int32.ofInt v.toNat

/-- The integer of 32 bits under a number; the last one counts. -/
def int32? (items : Items) (number : Nat) : Option Int32 :=
  ((integers items number).getLast?).map low32

/-- The integer of 32 bits under a number, zero if there is none. -/
def int32 (items : Items) (number : Nat) : Int32 := (int32? items number).getD 0

/-- The truth value under a number, false if there is none. -/
def flag (items : Items) (number : Nat) : Bool :=
  match (integers items number).getLast? with
  | some v => v ≠ 0
  | none => false

/-- The single record under a number: one that occurs again adds to it. -/
def record (items : Items) (number : Nat) : Items := (records items number).flatten

end Items
end ProtoStub.Envelope
