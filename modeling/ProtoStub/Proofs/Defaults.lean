import ProtoStub.Proofs.Revision

/-!
# Defaults

A new message holds the default of every field, and a field that cannot be absent is not
written where it holds its default. Both rest on the same values: `isZero_spec` says that what
is not written is the default again, up to the sign of a zero, and `newMessage_eq` says that
every message starts from the defaults.

Two changes come out of this. `fill` sets every absent property that has a default, and
`plainZeros` drops the sign of the zeros that are not written.
-/

namespace ProtoStub

/-! ## Zeros of either sign -/

/-- Negative zero. -/
def Binary64.negativeZero : Binary64 := ⟨9223372036854775808⟩

/-- Negative zero. -/
def Binary32.negativeZero : Binary32 := ⟨2147483648⟩

theorem Binary64.isZero_iff {x : Binary64} : x.isZero = true ↔ x = .zero ∨ x = .negativeZero := by
  obtain ⟨bits⟩ := x
  have hlt := bits.toNat_lt
  have hsign : Binary.Format.double.signBit = 9223372036854775808 := by decide
  simp only [Binary64.isZero, Binary.Format.magnitude, hsign, decide_eq_true_eq, Binary64.zero,
    Binary64.negativeZero, Binary64.mk.injEq, ← UInt64.toNat_inj, UInt64.reduceToNat]
  omega

theorem Binary32.isZero_iff {x : Binary32} : x.isZero = true ↔ x = .zero ∨ x = .negativeZero := by
  obtain ⟨bits⟩ := x
  have hlt := bits.toNat_lt
  have hsign : Binary.Format.single.signBit = 2147483648 := by decide
  simp only [Binary32.isZero, Binary.Format.magnitude, hsign, decide_eq_true_eq, Binary32.zero,
    Binary32.negativeZero, Binary32.mk.injEq, ← UInt32.toNat_inj, UInt32.reduceToNat]
  omega

/-- Whether a value is a negative zero. -/
def Value.IsNegativeZero (v : Value) : Prop :=
  v = .double .negativeZero ∨ v = .float .negativeZero

/-- The value with a negative zero replaced by the positive one. -/
def Value.plainZero : Value → Value
  | .double x => .double (if x = .negativeZero then .zero else x)
  | .float x => .float (if x = .negativeZero then .zero else x)
  | v => v

theorem Value.plainZero_of_not {v : Value} (h : ¬ v.IsNegativeZero) : v.plainZero = v := by
  cases v with
  | double x =>
    have hx : x ≠ .negativeZero := fun heq => h (.inl (congrArg Value.double heq))
    simp only [Value.plainZero, if_neg hx]
  | float x =>
    have hx : x ≠ .negativeZero := fun heq => h (.inr (congrArg Value.float heq))
    simp only [Value.plainZero, if_neg hx]
  | _ => rfl

namespace Codec

/-! ## The default of a field -/

/-- What a field holds in a new message. -/
def defaultOf (codec : Codec) (field : Field) : Option Value :=
  match codec.defaultValue field.info with
  | .ok value => value
  | .error _ => none

theorem defaultOf_eq {codec : Codec} {field : Field} {value : Option Value}
    (h : codec.defaultValue field.info = .ok value) : codec.defaultOf field = value := by
  rw [defaultOf, h]

/-- The zero of a kind that has one. -/
theorem exists_zero {codec : Codec} {info : FieldInfo} (hkind : info.kind ≠ .group)
    (hmessage : info.hasMessageKind = false) (hinitial : info.initial = info.kind.initialValue)
    (hindexed : codec.Indexed info.kind) :
    ∃ v, codec.defaultValue info = .ok (some v) ∧ Fits codec EnumDecl.Canonical info.kind v := by
  rw [FieldInfo.hasMessageKind] at hmessage
  rw [defaultValue, hinitial]
  cases hk : info.kind with
  | enum target =>
    rw [hk] at hindexed
    obtain ⟨e, he⟩ := hindexed
    have hnumber := enumOfNumber_eq he 0
    simp only [FieldKind.initialValue, hnumber]
    exact ⟨_, rfl, .enum he (canonical_of_enumOfNumber he hnumber)⟩
  | message target => simp [hk] at hmessage
  | group => exact absurd hk hkind
  | _ => exact ⟨_, rfl, by constructor⟩

/-- What a value that fits its kind and is zero has in common with the default, and one that is
not zero with itself. -/
theorem isZero_spec {codec : Codec} {info : FieldInfo} {v : Value}
    (hnames : codec.NamesApart info.kind) (hinitial : info.initial = info.kind.initialValue)
    (h : Fits codec EnumDecl.Canonical info.kind v) (path : String) :
    ∃ zero, codec.isZero info.kind path v = .ok zero ∧
      (zero = true → codec.defaultValue info = .ok (some v.plainZero)) ∧
      (zero = false → v.plainZero = v) := by
  rw [defaultValue, hinitial]
  generalize info.kind = kind at hnames h ⊢
  cases h with
  | double x =>
    refine ⟨x.isZero, rfl, fun hzero => ?_, fun hzero => ?_⟩
    · rcases Binary64.isZero_iff.1 hzero with rfl | rfl <;> rfl
    · refine Value.plainZero_of_not ?_
      rintro (hx | hx)
      · cases hx
        exact absurd (Binary64.isZero_iff.2 (.inr rfl)) (by rw [hzero]; decide)
      · cases hx
  | float x =>
    refine ⟨x.isZero, rfl, fun hzero => ?_, fun hzero => ?_⟩
    · rcases Binary32.isZero_iff.1 hzero with rfl | rfl <;> rfl
    · refine Value.plainZero_of_not ?_
      rintro (hx | hx)
      · cases hx
      · cases hx
        exact absurd (Binary32.isZero_iff.2 (.inr rfl)) (by rw [hzero]; decide)
  | @enum target e v hdeclared hvalue =>
    obtain ⟨number, hnumber, hback⟩ :=
      exists_number_of_canonical hdeclared (hnames target e rfl hdeclared) hvalue path
    refine ⟨decide (number = 0), ?_, fun hzero => ?_, fun _ => rfl⟩
    · simp only [isZero, hnumber]
      rfl
    · rw [decide_eq_true_eq] at hzero
      subst hzero
      simp only [FieldKind.initialValue, hback]
      rfl
  | bool b =>
    refine ⟨!b, rfl, fun hzero => ?_, fun _ => rfl⟩
    rw [Bool.not_eq_true'] at hzero
    rw [hzero]
    rfl
  | bytes bs =>
    refine ⟨bs.isEmpty, rfl, fun hzero => ?_, fun _ => rfl⟩
    rw [List.isEmpty_iff] at hzero
    rw [hzero]
    rfl
  | _ =>
    refine ⟨_, rfl, fun hzero => ?_, fun _ => rfl⟩
    rw [decide_eq_true_eq] at hzero
    rw [hzero]
    rfl

/-! ## The four sorts of fields -/

theorem defaultValue_list {codec : Codec} {info : FieldInfo} (hf : (Field.plain info).Formed)
    (h : info.repeated = true) : codec.defaultValue info = .ok (some (.list [])) := by
  cases hf with | plain _ _ hinitial _ _ => ?_
  rw [defaultValue, hinitial, FieldKind.initial, if_pos h]

theorem defaultValue_map {codec : Codec} {info : FieldInfo} {key value : Field}
    (hf : (Field.map info key value).Formed) :
    codec.defaultValue info = .ok (some (.map [])) := by
  cases hf with | map _ _ _ hinitial _ _ _ _ _ => ?_
  rw [defaultValue, hinitial]

/-- A field of a single value that can be absent is absent at first. -/
theorem defaultValue_explicit {codec : Codec} {info : FieldInfo} (hf : (Field.plain info).Formed)
    (hsingle : info.repeated = false) (h : (Field.plain info).implicitPresence = false) :
    codec.defaultValue info = .ok none := by
  cases hf with | plain _ _ hinitial _ _ => ?_
  rw [defaultValue, hinitial, FieldKind.initial, hsingle, if_neg Bool.false_ne_true]
  cases hopt : info.optional with
  | true => rfl
  | false =>
    -- A field that is neither repeated nor optional is only explicit if it holds a message.
    have hmessage : info.hasMessageKind = true := by
      simpa [Field.implicitPresence, Field.isMap, Field.isMessage, Field.info, hsingle, hopt]
        using h
    rw [FieldInfo.hasMessageKind] at hmessage
    split at hmessage
    next hk => rw [hk]; rfl
    · cases hmessage

/-- A field of a single value that cannot be absent starts at the zero of its kind. -/
theorem initial_implicit {info : FieldInfo} (hf : (Field.plain info).Formed)
    (h : (Field.plain info).implicitPresence = true) :
    info.repeated = false ∧ info.hasMessageKind = false ∧
      info.initial = info.kind.initialValue := by
  cases hf with | plain _ _ hinitial _ _ => ?_
  simp only [Field.implicitPresence, Field.isMap, Field.isMessage, Field.info, Bool.and_eq_true,
    Bool.not_eq_true', Bool.and_eq_false_imp] at h
  obtain ⟨⟨⟨hsingle, hopt⟩, -⟩, hmessage⟩ := h
  refine ⟨hsingle, ?_, ?_⟩
  · by_contra hk
    rw [Bool.not_eq_false] at hk
    exact absurd (hmessage hk) (by rw [hsingle]; decide)
  · rw [hinitial, FieldKind.initial, hsingle, hopt]
    rfl

/-- A field of a single value that cannot be absent is there from the first. -/
theorem defaultValue_implicit {codec : Codec} {info : FieldInfo} (hf : (Field.plain info).Formed)
    (hindexed : codec.Indexed info.kind) (h : (Field.plain info).implicitPresence = true) :
    ∃ v, codec.defaultValue info = .ok (some v) ∧ Fits codec EnumDecl.Canonical info.kind v := by
  obtain ⟨-, hmessage, hinitial⟩ := initial_implicit hf h
  cases hf with | plain _ hkind _ _ _ => ?_
  exact exists_zero hkind hmessage hinitial hindexed

/-- The default of a field is always defined. -/
theorem defaultValue_eq {codec : Codec} {field : Field} (hf : field.Formed)
    (hindexed : codec.Indexed field.contentKind) :
    codec.defaultValue field.info = .ok (codec.defaultOf field) := by
  suffices h : ∃ value, codec.defaultValue field.info = .ok value by
    obtain ⟨value, hvalue⟩ := h
    rw [hvalue, defaultOf_eq hvalue]
  cases field with
  | map info key value => exact ⟨_, defaultValue_map hf⟩
  | plain info =>
    by_cases himplicit : (Field.plain info).implicitPresence = true
    · obtain ⟨v, hv, -⟩ := defaultValue_implicit hf hindexed himplicit
      exact ⟨some v, hv⟩
    · rw [Bool.not_eq_true] at himplicit
      cases hrep : info.repeated with
      | true => exact ⟨_, defaultValue_list hf hrep⟩
      | false => exact ⟨_, defaultValue_explicit hf hrep himplicit⟩

theorem defaultOf_list {codec : Codec} {info : FieldInfo} (hf : (Field.plain info).Formed)
    (h : info.repeated = true) : codec.defaultOf (.plain info) = some (.list []) :=
  defaultOf_eq (defaultValue_list hf h)

theorem defaultOf_map {codec : Codec} {info : FieldInfo} {key value : Field}
    (hf : (Field.map info key value).Formed) :
    codec.defaultOf (.map info key value) = some (.map []) :=
  defaultOf_eq (defaultValue_map hf)

theorem defaultOf_explicit {codec : Codec} {info : FieldInfo} (hf : (Field.plain info).Formed)
    (hsingle : info.repeated = false) (h : (Field.plain info).implicitPresence = false) :
    codec.defaultOf (.plain info) = none :=
  defaultOf_eq (defaultValue_explicit hf hsingle h)

/-- A single message is absent at first. -/
theorem defaultOf_of_isMessage {codec : Codec} {field : Field} (hf : field.Formed)
    (h : field.isMessage = true) : codec.defaultOf field = none := by
  cases field with
  | map info key value => cases h
  | plain info =>
    refine defaultOf_explicit hf ?_ ?_
    · rw [Field.isMessage, Bool.and_eq_true, Bool.not_eq_true'] at h
      exact h.2
    · simp only [Field.implicitPresence, h, Bool.not_true, Bool.and_false]

/-- A member of a oneof is absent at first. -/
theorem defaultOf_of_oneof {codec : Codec} {field : Field} (hf : field.Formed)
    (hsingle : field.isSingle = true) (hmember : field.info.oneof.isSome = true) :
    codec.defaultOf field = none := by
  cases field with
  | map info key value => cases hsingle
  | plain info =>
    have hrep : info.repeated = false := by simpa [Field.isSingle] using hsingle
    have hopt : info.optional = true := by
      cases hf with | plain _ _ _ _ honeof => exact honeof hmember hrep
    refine defaultOf_explicit hf hrep ?_
    simp [Field.implicitPresence, Field.info, hopt]

/-! ## New messages -/

/-- The new message of a type. -/
def fresh (codec : Codec) (decl : MessageDecl) : Message :=
  (Message.empty decl.fqName).putAll decl.fields codec.defaultOf

theorem setDefaults_eq {codec : Codec} {fields : List Field} {m : Message}
    (hdefault : ∀ field ∈ fields, codec.defaultValue field.info = .ok (codec.defaultOf field))
    (hnames : (fields.map (·.info.name)).Nodup)
    (habsent : ∀ field ∈ fields, m.get? field.info.name = none) :
    codec.setDefaults fields m = .ok (m.putAll fields codec.defaultOf) := by
  induction fields generalizing m with
  | nil => rfl
  | cons field rest ih =>
    rw [List.map_cons, List.nodup_cons] at hnames
    rw [List.forall_mem_cons] at hdefault habsent
    have hput : m.update field.info.name (codec.defaultOf field) =
        m.put field.info.name (codec.defaultOf field) := by
      cases codec.defaultOf field with
      | none => exact (Message.unset_of_get?_none habsent.1).symm
      | some v => rfl
    have hrest := Message.get?_put_of_notMem hnames.1 habsent.2 (codec.defaultOf field)
    simp only [setDefaults, hdefault.1, hput, ih hdefault.2 hnames.2 hrest]
    rfl

/-- A schema that resolved files have, and by which messages can be written and read. -/
structure Sound (codec : Codec) : Prop extends codec.Valid where
  formed : ∀ decl ∈ codec.messages, ∀ field ∈ decl.fields, field.Formed

theorem Resolved.sound {codec : Codec} (h : codec.Resolved) (hvalid : codec.Valid) :
    codec.Sound := by
  cases h with | intro hbuild options =>
    exact ⟨hvalid, fun decl hdecl => (formed_of_build hbuild options decl hdecl).fields⟩

theorem newMessage_eq_of_formed {codec : Codec} {decl : MessageDecl}
    (hformed : ∀ field ∈ decl.fields, field.Formed) (hnames : decl.DistinctProperties)
    (hindexed : ∀ field ∈ decl.fields, codec.Indexed field.contentKind) :
    codec.newMessage decl = .ok (codec.fresh decl) := by
  refine setDefaults_eq (fun field hf => ?_) hnames fun _ _ => rfl
  exact defaultValue_eq (hformed field hf) (hindexed field hf)

theorem newMessage_eq {codec : Codec} (h : codec.Sound) {decl : MessageDecl}
    (hdecl : decl ∈ codec.messages) : codec.newMessage decl = .ok (codec.fresh decl) :=
  newMessage_eq_of_formed (h.formed decl hdecl) (h.properties decl hdecl) (h.indexed decl hdecl)

theorem get?_fresh {codec : Codec} {decl : MessageDecl} (hnames : decl.DistinctProperties)
    {field : Field} (hf : field ∈ decl.fields) :
    (codec.fresh decl).get? field.info.name = codec.defaultOf field :=
  Message.get?_putAll_of_mem hnames hf

theorem get?_fresh_of_forall_ne {codec : Codec} {decl : MessageDecl} {name : String}
    (h : ∀ field ∈ decl.fields, field.info.name ≠ name) :
    (codec.fresh decl).get? name = none :=
  Message.get?_putAll_of_forall_ne h

theorem typeName_fresh (codec : Codec) (decl : MessageDecl) :
    (codec.fresh decl).typeName = decl.fqName :=
  Message.typeName_putAll _ _ _

theorem sorted_fresh (codec : Codec) (decl : MessageDecl) : (codec.fresh decl).Sorted :=
  (Message.sorted_empty decl.fqName).putAll _ _

/-- A message of a type is made of its properties, put into the new message. -/
theorem putAll_fresh (codec : Codec) {decl : MessageDecl} (hnames : decl.DistinctProperties)
    {m : Message} (hsorted : m.Sorted) (htype : m.typeName = decl.fqName)
    (hdeclared : ∀ name v, m.get? name = some v → ∃ field ∈ decl.fields, field.info.name = name) :
    (codec.fresh decl).putAll decl.fields (fun field => m.get? field.info.name) = m := by
  refine Message.ext_get? ((sorted_fresh codec decl).putAll _ _) hsorted ?_ ?_
  · rw [Message.typeName_putAll, typeName_fresh, htype]
  · intro name
    by_cases hname : ∃ field ∈ decl.fields, field.info.name = name
    · obtain ⟨field, hf, rfl⟩ := hname
      exact Message.get?_putAll_of_mem hnames hf
    · have hne : ∀ field ∈ decl.fields, field.info.name ≠ name :=
        fun field hf heq => hname ⟨field, hf, heq⟩
      rw [Message.get?_putAll_of_forall_ne hne, get?_fresh_of_forall_ne hne]
      cases hv : m.get? name with
      | none => rfl
      | some v => exact absurd (hdeclared name v hv) hname

/-! ## Changes -/

/-- Absent properties get their defaults. -/
def fill (codec : Codec) : Change := fun field old => old.or (codec.defaultOf field)

/-- Negative zeros become positive where they are not written. -/
def plainZeros : Change := fun field old =>
  if field.implicitPresence then old.map Value.plainZero else old

/-- What a property is once it is written and read again. -/
def settle (codec : Codec) : Change := fun field old => codec.fill field (plainZeros field old)

theorem settle_implicit (codec : Codec) {field : Field} (h : field.implicitPresence = true)
    (v : Value) : codec.settle field (some v) = some v.plainZero := by
  simp only [settle, plainZeros, h, if_true, Option.map_some, fill, Option.some_or]

theorem settle_explicit (codec : Codec) {field : Field} (h : field.implicitPresence = false)
    (v : Value) : codec.settle field (some v) = some v := by
  simp only [settle, plainZeros, h, Bool.false_eq_true, if_false, fill, Option.some_or]

theorem settle_none (codec : Codec) (field : Field) :
    codec.settle field none = codec.defaultOf field := by
  simp only [settle, plainZeros, fill, Option.map_none, ite_self, Option.none_or]

/-! ## Levels -/

/-- At most one member of each oneof is there. -/
def OneOfEach (decl : MessageDecl) (m : Message) : Prop :=
  ∀ f ∈ decl.fields, ∀ g ∈ decl.fields, f.info.oneof.isSome = true →
    f.info.oneof = g.info.oneof → (m.get? f.info.name).isSome = true →
    (m.get? g.info.name).isSome = true → f = g

/-- No field that cannot be absent holds a negative zero. -/
def NoNegativeZero (decl : MessageDecl) (m : Message) : Prop :=
  ∀ field ∈ decl.fields, field.implicitPresence = true → ∀ v,
    m.get? field.info.name = some v → ¬ v.IsNegativeZero

/-- Every field that has a default is there. -/
def Complete (codec : Codec) (decl : MessageDecl) (m : Message) : Prop :=
  ∀ field ∈ decl.fields, (codec.defaultOf field).isSome = true →
    (m.get? field.info.name).isSome = true

/-- What a field that cannot be absent holds is a single value and no message. -/
theorem Holds.fits_of_implicit {codec : Codec} {rules : Discipline}
    {nested : MessageDecl → Message → Prop} {field : Field} {v : Value}
    (h : Holds codec rules nested field v) (himplicit : field.implicitPresence = true) :
    Fits codec rules.enum field.info.kind v ∧ field.contentKind = field.info.kind := by
  cases h with
  | map => simp [Field.implicitPresence, Field.isMap] at himplicit
  | list hrep => simp [Field.implicitPresence, Field.info, hrep] at himplicit
  | single hsingle hv =>
    refine ⟨hv.fits fun target htarget => ?_, rfl⟩
    simp [Field.implicitPresence, Field.info, Field.isMessage, FieldInfo.hasMessageKind, hsingle,
      htarget] at himplicit

end Codec
end ProtoStub
