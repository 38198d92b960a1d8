import ProtoStub.Proofs.Concatenation

/-!
# What is read does not depend on where it stands

A cursor knows its offset only to report faults. Bytes that stand `count` further on are read in
the same way, and a fault is reported `count` further on (`decodeInto_shift`), with one
exception: a tag with a wire type that does not exist is refused at offset 0 wherever it stands
(`Error.moved`). In particular a run that succeeds does so at every offset
(`decodeInto_eq_ok_congr`).
-/

namespace ProtoStub

/-! ## Errors that name an offset -/

namespace Error

/-- The offset that an error names. -/
def offset? : Error → Option Nat
  | wireFormat offset _ | varint offset => some offset
  | _ => none

/-- The error `count` bytes further on. -/
def shift (count : Nat) : Error → Error
  | wireFormat offset details => wireFormat (offset + count) details
  | varint offset => varint (offset + count)
  | e => e

theorem shift_eq_self {e : Error} (h : e.offset? = none) (count : Nat) : e.shift count = e := by
  cases e with
  | wireFormat offset details => cases h
  | varint offset => cases h
  | _ => rfl

theorem shift_zero (e : Error) : e.shift 0 = e := by
  cases e <;> rfl

theorem shift_eq_iff {e : Error} (h : e.offset?.isSome = true) {count : Nat} :
    e.shift count = e ↔ count = 0 := by
  constructor
  · intro heq
    cases e with
    | wireFormat offset details =>
      obtain ⟨hoffset, -⟩ := wireFormat.inj heq
      omega
    | varint offset =>
      have hoffset := varint.inj heq
      omega
    | _ => cases h
  · rintro rfl
    exact shift_zero e

/-- The faults of a tag whose wire type does not exist. -/
def wireTypeFaults : List Error :=
  [wireFormat 0 "unknown wire type: 6", wireFormat 0 "unknown wire type: 7"]

/-- What an error becomes when everything stands `count` bytes further on. -/
def moved (count : Nat) (e : Error) : Error :=
  if e ∈ wireTypeFaults then e else e.shift count

theorem moved_eq_self {e : Error} (h : e.offset? = none) (count : Nat) : e.moved count = e := by
  rw [moved, shift_eq_self h, ite_self]

@[simp] theorem moved_varint (offset count : Nat) :
    (varint offset).moved count = varint (offset + count) := by
  rw [moved, if_neg (by simp [wireTypeFaults])]
  rfl

/-- The details of a fault that is reported where it stands. -/
def Located (details : String) : Prop :=
  details ≠ "unknown wire type: 6" ∧ details ≠ "unknown wire type: 7"

theorem Located.moved {details : String} (h : Located details) (offset count : Nat) :
    (wireFormat offset details).moved count = wireFormat (offset + count) details := by
  rw [Error.moved, if_neg]
  · rfl
  · simp [wireTypeFaults, h.1, h.2]

/-- The two texts about wire types are short. -/
theorem located_of_length {details : String} (h : 20 < details.length) : Located details := by
  constructor
  · rintro rfl
    exact absurd h (by decide)
  · rintro rfl
    exact absurd h (by decide)

theorem located_of_mem {details : String} (h : 'U' ∈ details.toList) : Located details := by
  constructor
  · rintro rfl
    exact absurd h (by decide)
  · rintro rfl
    exact absurd h (by decide)

theorem located_unterminated (number : String) : Located ("unterminated group " ++ number) := by
  have hthird : ("unterminated group " ++ number).toList[2]? = some 't' := by
    rw [String.toList_append]
    rfl
  constructor
  · intro heq
    rw [heq] at hthird
    exact absurd hthird (by decide)
  · intro heq
    rw [heq] at hthird
    exact absurd hthird (by decide)

end Error

namespace Wire

/-- Changes the error of a result by `onError` and its value by `move`. -/
def relocate {α : Type} (onError : Error → Error) (move : α → α) :
    Except Error α → Except Error α
  | .error e => .error (onError e)
  | .ok a => .ok (move a)

/-! ## Cursors further on -/

namespace Cursor

/-- The cursor over the same bytes, `count` further on. -/
def shift (c : Cursor) (count : Nat) : Cursor := ⟨c.offset + count, c.bytes⟩

variable (c : Cursor) (count : Nat)

@[simp] theorem bytes_shift : (c.shift count).bytes = c.bytes := rfl

@[simp] theorem offset_shift : (c.shift count).offset = c.offset + count := rfl

@[simp] theorem size_shift : (c.shift count).size = c.size := rfl

theorem advance_shift (n : Nat) : (c.shift count).advance n = (c.advance n).shift count := by
  simp only [advance, shift, Cursor.mk.injEq, and_true]
  omega

theorem window_shift (n : Nat) : (c.shift count).window n = (c.window n).shift count := rfl

/-- Two cursors over the same bytes are both shifted from the start. -/
theorem eq_shift_start : c = (start c.bytes).shift c.offset := by
  simp [shift, start]

theorem varint?_shift :
    (c.shift count).varint? = c.varint?.map fun r => (r.1, r.2.shift count) := by
  simp only [varint?, bytes_shift, Option.map_map]
  cases decodeVarint c.bytes with
  | none => rfl
  | some r => simp only [Option.map_some, Function.comp_apply, advance_shift]

end Cursor

/-- A reader that reads the same further on, where its faults are moved. -/
def Placed {α : Type} (read : Cursor → Except Error (α × Cursor)) : Prop :=
  ∀ (c : Cursor) (count : Nat), read (c.shift count) =
    relocate (Error.moved count) (fun r => (r.1, r.2.shift count)) (read c)

theorem Placed.map {α β : Type} {read : Cursor → Except Error (α × Cursor)} (h : Placed read)
    (f : α → β) : Placed fun c => (fun r : α × Cursor => (f r.1, r.2)) <$> read c := by
  intro c count
  simp only [h c count]
  cases read c <;> rfl

/-! ## Values -/

namespace Cursor

theorem placed_varint : Placed varint := by
  intro c count
  simp only [varint, varint?_shift]
  cases c.varint? with
  | none => simp [relocate]
  | some r => rfl

theorem placed_word (n : Nat) (what : String) : Placed fun c => c.word n what := by
  intro c count
  have hlocated : Error.Located ("not enough bytes for " ++ what) :=
    Error.located_of_length (by
      rw [String.length_append, show "not enough bytes for ".length = 21 from rfl]
      omega)
  simp only [word, size_shift, bytes_shift, offset_shift, advance_shift]
  by_cases hs : c.size < n
  · simp only [if_pos hs, relocate, hlocated.moved]
  · simp only [if_neg hs, relocate]

theorem placed_word64 : Placed word64 := (placed_word 8 "I64").map UInt64.ofNat

theorem placed_word32 : Placed word32 := (placed_word 4 "I32").map UInt32.ofNat

theorem body_shift (c : Cursor) (count : Nat) :
    (c.shift count).body =
      relocate (Error.moved count) (fun r => (r.1.shift count, r.2.shift count)) c.body := by
  simp only [body, varint?_shift]
  cases c.varint? with
  | none => simp [relocate]
  | some r =>
    obtain ⟨length, rest⟩ := r
    have hlocated : Error.Located ("length " ++ toString length.toNat ++ " exceeds the " ++
        toString rest.size ++ " remaining bytes") :=
      Error.located_of_length (by
        simp only [String.length_append, show "length ".length = 7 from rfl,
          show " exceeds the ".length = 13 from rfl, show " remaining bytes".length = 16 from rfl]
        omega)
    simp only [Option.map_some, size_shift, offset_shift, advance_shift, window_shift]
    by_cases hl : length.toNat ≤ rest.size
    · simp only [if_pos hl, relocate]
    · simp only [if_neg hl, relocate, hlocated.moved]

end Cursor

/-! ## Passing over unknown records

A fault inside a record that is passed over is reported relative to an origin, which need not
move as far as the cursor does. -/

theorem skipValue_shift (wireType : WireType) (position : Nat) (c : Cursor) (further count : Nat) :
    skipValue wireType (position + further) (c.shift count) =
      relocate (Error.moved further) (·.shift count) (skipValue wireType position c) := by
  cases wireType with
  | varint =>
    have hlocated : Error.Located "failed to decode varint value" :=
      Error.located_of_length (by decide)
    simp only [skipValue, Cursor.varint?_shift]
    cases c.varint? with
    | none => simp only [Option.map_none, relocate, hlocated.moved]
    | some r => rfl
  | i64 =>
    have hlocated : Error.Located "not enough bytes for I64" :=
      Error.located_of_length (by decide)
    simp only [skipValue, Cursor.size_shift, Cursor.advance_shift]
    by_cases hs : c.size < 8
    · simp only [if_pos hs, relocate, hlocated.moved]
    · simp only [if_neg hs, relocate]
  | len =>
    have hprefix : Error.Located "failed to decode length prefix" :=
      Error.located_of_length (by decide)
    simp only [skipValue, Cursor.varint?_shift]
    cases c.varint? with
    | none => simp only [Option.map_none, relocate, hprefix.moved]
    | some r =>
      obtain ⟨length, rest⟩ := r
      have hlocated : Error.Located ("not enough bytes for LEN field (need " ++
          toString length.toNat ++ ", have " ++ toString rest.size ++ ")") :=
        Error.located_of_length (by
          simp only [String.length_append,
            show "not enough bytes for LEN field (need ".length = 37 from rfl]
          omega)
      simp only [Option.map_some, Cursor.size_shift, Cursor.advance_shift]
      by_cases hs : rest.size < length.toNat
      · simp only [if_pos hs, relocate, hlocated.moved]
      · simp only [if_neg hs, relocate]
  | i32 =>
    have hlocated : Error.Located "not enough bytes for I32" :=
      Error.located_of_length (by decide)
    simp only [skipValue, Cursor.size_shift, Cursor.advance_shift]
    by_cases hs : c.size < 4
    · simp only [if_pos hs, relocate, hlocated.moved]
    · simp only [if_neg hs, relocate]
  | startGroup | endGroup => rfl

/-- A tag is refused for its wire type or for its number. -/
theorem splitTag_eq_error {tag : UInt64} {e : Error} (h : splitTag tag = .error e) :
    e ∈ Error.wireTypeFaults ∨ ∃ number, e = .fieldNumber number := by
  unfold splitTag at h
  cases hw : WireType.ofCode (tag.toNat % 8) with
  | error fault =>
    rw [hw] at h
    cases h
    have hcode : tag.toNat % 8 < 8 := Nat.mod_lt _ (by decide)
    revert hw hcode
    generalize tag.toNat % 8 = code
    intro hw hcode
    match code, hcode with
    | 6, _ | 7, _ =>
      cases hw
      exact .inl (by decide)
  | ok wireType =>
    rw [hw] at h
    simp only [bind, Except.bind] at h
    split at h
    · cases h
      exact .inr ⟨_, rfl⟩
    · cases h

theorem moved_of_splitTag {tag : UInt64} {e : Error} (h : splitTag tag = .error e) (count : Nat) :
    e.moved count = e := by
  rcases splitTag_eq_error h with hfault | ⟨number, rfl⟩
  · rw [Error.moved, if_pos hfault]
  · exact Error.moved_eq_self rfl count

theorem skipRecord_shift (origin : Nat) (c : Cursor) (further count : Nat) :
    skipRecord (origin + further) (c.shift count) =
      relocate (Error.moved further) (fun r => (r.1, r.2.shift count)) (skipRecord origin c) := by
  have hempty : Error.Located "empty data" := ⟨by decide, by decide⟩
  have htag : Error.Located "failed to decode field tag" := Error.located_of_length (by decide)
  simp only [skipRecord, Cursor.bytes_shift, Cursor.varint?_shift]
  by_cases hb : c.bytes.isEmpty = true
  · simp only [if_pos hb, relocate, hempty.moved]
  · simp only [if_neg hb]
    cases c.varint? with
    | none => simp only [Option.map_none, relocate, htag.moved]
    | some r =>
      obtain ⟨tag, rest⟩ := r
      simp only [Option.map_some]
      cases ht : splitTag tag with
      | error e => simp only [relocate, moved_of_splitTag ht]
      | ok t =>
        have hposition : origin + further + ((rest.shift count).offset - (c.shift count).offset) =
            origin + (rest.offset - c.offset) + further := by
          rw [Cursor.offset_shift, Cursor.offset_shift, Nat.add_sub_add_right]
          omega
        simp only [hposition, skipValue_shift]
        cases skipValue t.2 (origin + (rest.offset - c.offset)) rest <;> rfl

/-- Closing groups further on. The errors change by `onError`, which moves the faults of the
groups themselves as far as the cursor and agrees with what becomes of the records inside. -/
theorem skipGroups_shift {onError : Error → Error} {origin origin' count : Nat} {number : UInt32}
    (hopen : ∀ offset,
      onError (.wireFormat offset ("unterminated group " ++ toString number.toNat)) =
        .wireFormat (offset + count) ("unterminated group " ++ toString number.toNat))
    (hvarint : ∀ offset, onError (.varint offset) = .varint (offset + count))
    (htag : ∀ tag e, splitTag tag = .error e → onError e = e)
    (hrecord : ∀ c : Cursor, skipRecord origin' (c.shift count) =
      relocate onError (fun r => (r.1, r.2.shift count)) (skipRecord origin c))
    (depth : Nat) (c : Cursor) :
    skipGroups origin' number depth (c.shift count) =
      relocate onError (·.shift count) (skipGroups origin number depth c) := by
  fun_induction skipGroups origin number depth c with
  | case1 c => rw [skipGroups, relocate]
  | case2 c depth hb =>
    rw [skipGroups, Cursor.bytes_shift, if_pos hb, relocate, hopen, Cursor.offset_shift]
  | case3 c depth hb hv =>
    rw [skipGroups, Cursor.bytes_shift, if_neg hb, Cursor.varint?_shift, hv]
    simp only [Option.map_none, relocate, hvarint, Cursor.offset_shift]
  | case4 c depth hb tag rest hv e ht =>
    rw [skipGroups, Cursor.bytes_shift, if_neg hb, Cursor.varint?_shift, hv]
    simp only [Option.map_some, ht, relocate, htag tag e ht]
  | case5 c depth hb tag rest hv n wireType ht e hr =>
    rw [skipGroups, Cursor.bytes_shift, if_neg hb, Cursor.varint?_shift, hv]
    simp only [Option.map_some, ht]
    split
    next he =>
      rw [hrecord, hr] at he
      cases he
      rfl
    next he =>
      rw [hrecord, hr] at he
      cases he
  | case6 c depth hb tag rest hv n wireType ht n' after hr _ ih =>
    rw [skipGroups, Cursor.bytes_shift, if_neg hb, Cursor.varint?_shift, hv]
    simp only [Option.map_some, ht]
    split
    next he =>
      rw [hrecord, hr] at he
      cases he
    next he =>
      rw [hrecord, hr] at he
      cases he
      exact ih

theorem skipUnknown_shift (number : UInt32) (wireType : WireType) (c : Cursor) (count : Nat) :
    skipUnknown number wireType (c.shift count) =
      relocate (Error.moved count) (·.shift count) (skipUnknown number wireType c) := by
  simp only [skipUnknown, Cursor.offset_shift, skipRecord_shift]
  cases skipRecord c.offset c with
  | error e => rfl
  | ok r =>
    simp only [relocate]
    cases wireType with
    | startGroup =>
      exact skipGroups_shift (Error.located_unterminated _ |>.moved · count)
        (Error.moved_varint · count) (fun _ _ ht => moved_of_splitTag ht count)
        (skipRecord_shift c.offset · count count) 1 r.2
    | _ => rfl

end Wire

namespace Codec

open Wire

/-! ## Faults of the schema

What fails because a type is not there, or has no default, fails at no offset. -/

/-- A result whose error, if there is one, names no offset. -/
def Unplaced {α : Type} (result : Except Error α) : Prop :=
  ∀ e, result = .error e → e.offset? = none

theorem unplaced_ok {α : Type} (a : α) : Unplaced (.ok a) := by
  intro e h
  cases h

theorem Unplaced.bind {α β : Type} {result : Except Error α} (h : Unplaced result)
    {next : α → Except Error β} (hnext : ∀ a, result = .ok a → Unplaced (next a)) :
    Unplaced (result >>= next) := by
  cases result with
  | error e =>
    intro e' he
    cases he
    exact h e rfl
  | ok a => exact hnext a rfl

theorem Unplaced.map {α β : Type} {result : Except Error α} (h : Unplaced result) (f : α → β) :
    Unplaced (f <$> result) := by
  cases result with
  | error e =>
    intro e' he
    cases he
    exact h e rfl
  | ok a => exact unplaced_ok (f a)

variable (codec : Codec)

theorem unplaced_message (name : String) : Unplaced (codec.message name) := by
  intro e h
  simp only [message] at h
  split at h
  · cases h
  · cases h
    rfl

theorem unplaced_enumOfNumber (name : String) (number : Int32) :
    Unplaced (codec.enumOfNumber name number) := by
  refine Unplaced.bind ?_ fun _ _ => unplaced_ok _
  intro e h
  simp only [enumeration] at h
  split at h
  · cases h
  · cases h
    rfl

theorem unplaced_zeroOf (kind : FieldKind) : Unplaced (zeroOf kind) := by
  intro e h
  cases kind <;> cases h <;> rfl

theorem unplaced_defaultValue (info : FieldInfo) : Unplaced (codec.defaultValue info) := by
  unfold defaultValue
  split
  case h_6 => exact (codec.unplaced_enumOfNumber _ _).map _
  case h_7 | h_8 | h_9 => exact unplaced_ok _
  all_goals exact (unplaced_zeroOf info.kind).map _

theorem unplaced_setDefaults (fields : List Field) (m : Message) :
    Unplaced (codec.setDefaults fields m) := by
  induction fields generalizing m with
  | nil => exact unplaced_ok m
  | cons field rest ih =>
    have hdefault := codec.unplaced_defaultValue field.info
    rw [setDefaults]
    split
    next e he =>
      intro e' h
      cases h
      exact hdefault e he
    next value _ => exact ih (m.update field.info.name value)

theorem unplaced_newMessage (decl : MessageDecl) : Unplaced (codec.newMessage decl) :=
  codec.unplaced_setDefaults decl.fields _

theorem unplaced_create (name : String) : Unplaced (codec.create name) :=
  (codec.unplaced_message name).bind fun decl _ => codec.unplaced_newMessage decl

theorem unplaced_openNested (path : String) (nested : Nested) (old : Option Value) :
    Unplaced (codec.openNested path nested old) := by
  cases nested with
  | message target repeated =>
    have hmessage := codec.unplaced_message target.fqName
    simp only [openNested]
    cases hdecl : codec.message target.fqName with
    | error e =>
      intro e' h
      cases h
      exact hmessage e hdecl
    | ok decl =>
      simp only
      split
      · exact unplaced_ok _
      · exact (codec.unplaced_newMessage decl).map _
  | entry key value =>
    refine (unplaced_zeroOf key.kind).bind fun k _ => ?_
    refine (codec.unplaced_defaultValue value).bind fun initial _ => ?_
    simp only
    split
    · exact ((codec.unplaced_create _).map _).bind fun v _ => unplaced_ok _
    · exact unplaced_ok _
    · intro e h
      cases h
      rfl

/-! ## Records -/

variable {codec}

theorem placed_readScalar (codec : Codec) (kind : FieldKind) (path : String) :
    Placed (codec.readScalar kind path) := by
  cases kind with
  | double => exact Cursor.placed_word64.map fun n => Value.double ⟨n⟩
  | float => exact Cursor.placed_word32.map fun n => Value.float ⟨n⟩
  | int32 => exact Cursor.placed_varint.map fun n => Value.int32 (Int32.ofInt n.toNat)
  | int64 => exact Cursor.placed_varint.map fun n => Value.int64 (Int64.ofInt n.toNat)
  | uint32 => exact Cursor.placed_varint.map fun n => Value.uint32 (UInt32.ofNat n.toNat)
  | uint64 => exact Cursor.placed_varint.map Value.uint64
  | sint32 => exact Cursor.placed_varint.map fun n => Value.int32 (unzigzag32 n)
  | sint64 => exact Cursor.placed_varint.map fun n => Value.int64 (unzigzag64 n)
  | fixed32 => exact Cursor.placed_word32.map Value.uint32
  | fixed64 => exact Cursor.placed_word64.map Value.uint64
  | sfixed32 => exact Cursor.placed_word32.map fun n => Value.int32 (Int32.ofInt n.toNat)
  | sfixed64 => exact Cursor.placed_word64.map fun n => Value.int64 (Int64.ofInt n.toNat)
  | bool => exact Cursor.placed_varint.map fun n => Value.bool (n ≠ 0)
  | bytes =>
    intro c count
    simp only [readScalar, Cursor.body_shift]
    cases c.body <;> rfl
  | string =>
    intro c count
    simp only [readScalar, Cursor.body_shift]
    cases c.body with
    | error e => rfl
    | ok r =>
      simp only [relocate, Cursor.bytes_shift, Cursor.offset_shift]
      cases Text.utf8Decode r.1.bytes with
      | ok s => rfl
      | error fault =>
        have hlocated : Error.Located (path ++ ": invalid UTF-8: " ++ fault.message) :=
          Error.located_of_mem (by simp [String.toList_append])
        simp only [hlocated.moved]
  | enum target =>
    intro c count
    simp only [readScalar, Cursor.placed_varint c count]
    cases c.varint with
    | error e => rfl
    | ok r =>
      have hlookup := codec.unplaced_enumOfNumber target.fqName (Int32.ofInt r.1.toNat)
      simp only [relocate]
      cases he : codec.enumOfNumber target.fqName (Int32.ofInt r.1.toNat) with
      | error e => simp only [Functor.map, Except.map, Error.moved_eq_self (hlookup e he)]
      | ok value => rfl
  | message target | group =>
    intro c count
    exact congrArg Except.error (Error.moved_eq_self rfl count).symm

theorem readPacked_shift (codec : Codec) (kind : FieldKind) (path : String) (c : Cursor)
    (count : Nat) :
    codec.readPacked kind path (c.shift count) =
      relocate (Error.moved count) id (codec.readPacked kind path c) := by
  fun_induction readPacked codec kind path c with
  | case1 c hb => rw [readPacked, Cursor.bytes_shift, if_pos hb, relocate, id]
  | case2 c hb e hs =>
    rw [readPacked, Cursor.bytes_shift, if_neg hb]
    split
    next he =>
      rw [placed_readScalar, hs] at he
      cases he
      rfl
    next he =>
      rw [placed_readScalar, hs] at he
      cases he
  | case3 c hb v rest hs _ ih =>
    rw [readPacked, Cursor.bytes_shift, if_neg hb]
    split
    next he =>
      rw [placed_readScalar, hs] at he
      cases he
    next he =>
      rw [placed_readScalar, hs] at he
      cases he
      rw [ih]
      cases codec.readPacked kind path rest <;> rfl

/-- The same record, `count` bytes further on. -/
def Occurrence.shift (count : Nat) : Occurrence → Occurrence
  | .unknown => .unknown
  | .scalars slot repeated values => .scalars slot repeated values
  | .body slot nested content => .body slot nested (content.shift count)

theorem moved_wireMismatch (path : String) (expected actual : WireType) (c : Cursor)
    (count : Nat) :
    (wireMismatch path expected actual c).moved count =
      wireMismatch path expected actual (c.shift count) := by
  refine Error.Located.moved (Error.located_of_length ?_) c.offset count
  simp only [String.length_append, show " expects wire type ".length = 19 from rfl,
    show ", got ".length = 6 from rfl]
  omega

theorem readSlot_shift (codec : Codec) (slot : Slot) (wireType : WireType) (c : Cursor)
    (count : Nat) :
    codec.readSlot slot wireType (c.shift count) =
      relocate (Error.moved count) (fun r => (r.1.shift count, r.2.shift count))
        (codec.readSlot slot wireType c) := by
  simp only [readSlot]
  split
  · by_cases hw : wireType = .len
    · simp only [if_pos hw, Cursor.body_shift]
      cases c.body <;> rfl
    · simp only [if_neg hw, relocate, moved_wireMismatch]
  next kind repeated _ =>
    by_cases hp : (repeated && kind.isPackable && wireType = .len) = true
    · simp only [if_pos hp, Cursor.body_shift]
      cases c.body with
      | error e => rfl
      | ok r =>
        simp only [relocate, readPacked_shift]
        cases codec.readPacked kind slot.path r.1 <;> rfl
    · simp only [if_neg hp, placed_readScalar codec kind slot.path c count]
      by_cases hw : wireType = kind.wireType
      · simp only [if_pos hw]
        cases codec.readScalar kind slot.path c <;> rfl
      · simp only [if_neg hw, relocate, moved_wireMismatch]

theorem readRecord_shift (codec : Codec) (slots : Slots) (c : Cursor) (count : Nat) :
    codec.readRecord slots (c.shift count) =
      relocate (Error.moved count) (fun r => (r.1.shift count, r.2.shift count))
        (codec.readRecord slots c) := by
  simp only [readRecord, Cursor.placed_varint c count]
  cases c.varint with
  | error e => rfl
  | ok r =>
    simp only [relocate]
    cases ht : splitTag r.1 with
    | error e => simp only [moved_of_splitTag ht]
    | ok t =>
      simp only
      cases slots t.1 with
      | some slot => exact codec.readSlot_shift slot t.2 r.2 count
      | none =>
        simp only [skipUnknown_shift]
        cases skipUnknown t.1 t.2 c <;> rfl

/-! ## Runs -/

/-- Entering a record that stands further on, where its body is read too. -/
theorem enter_shift (codec : Codec) (m : Message) (occurrence : Occurrence) (count : Nat)
    (hbody : ∀ slot nested content, occurrence = .body slot nested content →
      ∀ slots start, codec.decodeInto slots (content.shift count) start =
        relocate (Error.moved count) id (codec.decodeInto slots content start)) :
    codec.enter m (occurrence.shift count) =
      relocate (Error.moved count) id (codec.enter m occurrence) := by
  cases occurrence with
  | unknown => rfl
  | scalars slot repeated values => rfl
  | body slot nested content =>
    have hopen := codec.unplaced_openNested slot.path nested (m.get? slot.name)
    simp only [Occurrence.shift, enter]
    cases ho : codec.openNested slot.path nested (m.get? slot.name) with
    | error e => simp only [relocate, Error.moved_eq_self (hopen e ho)]
    | ok opened =>
      simp only [hbody slot nested content rfl]
      cases codec.decodeInto opened.1 content opened.2 <;> rfl

/-- A run over bytes that stand further on has the same result, and its fault is moved. -/
theorem decodeInto_shift (codec : Codec) (slots : Slots) (c : Cursor) (m : Message)
    (count : Nat) :
    codec.decodeInto slots (c.shift count) m =
      relocate (Error.moved count) id (codec.decodeInto slots c m) := by
  -- Bodies and rests are shorter, so the induction is on the bytes that are left.
  induction hn : c.size using Nat.strongRecOn generalizing slots c m with
  | _ n ih =>
    subst hn
    by_cases hb : c.bytes = []
    · rw [decodeInto_nil codec slots m hb, decodeInto_nil codec slots m (c := c.shift count) hb]
      rfl
    · rw [decodeInto_eq codec slots m hb, decodeInto_eq codec slots m (c := c.shift count) hb,
        readRecord_shift]
      cases hr : codec.readRecord slots c with
      | error e => rfl
      | ok r =>
        obtain ⟨occurrence, rest⟩ := r
        obtain ⟨hmoved, hshorter⟩ := readRecord_moved hr
        have henter := codec.enter_shift m occurrence count (by
          rintro slot nested content rfl slots start
          exact ih content.size hshorter slots content start rfl)
        simp only [relocate, henter]
        cases codec.enter m occurrence with
        | error e => rfl
        | ok next => exact ih rest.size hmoved.size_lt slots rest next rfl

theorem decodeInto_unplaced {codec : Codec} {slots : Slots} {c : Cursor} {m m' : Message}
    (h : codec.decodeInto slots c m = .ok m') {c' : Cursor} (hbytes : c'.bytes = c.bytes) :
    codec.decodeInto slots c' m = .ok m' := by
  -- Both cursors are shifted from the start of the bytes.
  have hstart : codec.decodeInto slots (Cursor.start c.bytes) m = .ok m' := by
    rw [c.eq_shift_start, decodeInto_shift] at h
    cases hs : codec.decodeInto slots (Cursor.start c.bytes) m with
    | error e =>
      rw [hs] at h
      cases h
    | ok done =>
      rw [hs] at h
      exact h
  rw [c'.eq_shift_start, decodeInto_shift, hbytes, hstart]
  rfl

/-- A run succeeds, and with the same message, wherever its bytes stand. -/
theorem decodeInto_eq_ok_congr (codec : Codec) (slots : Slots) {c c' : Cursor}
    (hbytes : c'.bytes = c.bytes) (m m' : Message) :
    codec.decodeInto slots c' m = .ok m' ↔ codec.decodeInto slots c m = .ok m' :=
  ⟨fun h => decodeInto_unplaced h hbytes.symm, fun h => decodeInto_unplaced h hbytes⟩

end Codec
end ProtoStub
