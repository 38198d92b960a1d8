import ProtoStub.Proofs.RecordOrder

/-!
# Packed runs and single values

A list of numbers, truth values or enum values can be written as one record that holds all of them,
as one record for each, or in parts of either sort (`Chunk`), and records of other fields can come
between the parts. Reading does not tell the difference (`decode_chunks`): the parts are added to the
list one after the other, and the other records neither see the list nor change it
(`decodeInto_frame`).
-/

namespace ProtoStub

/-- The values of an enum that their own numbers stand for. -/
def EnumDecl.Faithful (e : EnumDecl) : EnumValue → Prop
  | .named name => ∃ number, e.numberOf? name = some number ∧ e.nameOf? number = some name
  | .unknown number => e.nameOf? number = none

namespace Codec

open Wire

variable {codec : Codec}

theorem exists_number_of_faithful {enumName : String} {e : EnumDecl} {v : EnumValue}
    (h : codec.enumeration enumName = .ok e) (hv : e.Faithful v) (path : String) :
    ∃ number, codec.numberOfEnum enumName path v = .ok number ∧
      codec.enumOfNumber enumName number = .ok v := by
  cases v with
  | named name =>
    obtain ⟨number, hnumber, hname⟩ := hv
    refine ⟨number, ?_, ?_⟩
    · simp only [numberOfEnum, h, bind, Except.bind, hnumber]
      rfl
    · rw [enumOfNumber_eq h, hname]
  | unknown number =>
    refine ⟨number, rfl, ?_⟩
    rw [enumOfNumber_eq h, show e.nameOf? number = none from hv]

/-! ## Records of other fields -/

section Frame

variable {slots : Slots} {slot : Slot} {m m' : Message}

/-- A property without rivals is set as a record of its field sets it. -/
theorem enter_set (hrivals : slot.rivals = []) (m : Message) (v : Value) :
    codec.enter m (.scalars slot false [v]) = .ok (m.set slot.name v) := by
  simp only [enter, absorb, Slot.store, hrivals]
  rfl

theorem enter_frame (hrivals : slot.rivals = []) {occurrence : Occurrence}
    (hapart : ∀ s, occurrence.slot? = some s → s.Apart slot) {next : Message} (hm : m.Sorted)
    (h : codec.enter m occurrence = .ok next) (v : Value) :
    codec.enter (m.set slot.name v) occurrence = .ok (next.set slot.name v) := by
  have hset : codec.enter next (.scalars slot false [v]) = .ok (next.set slot.name v) :=
    enter_set hrivals next v
  have hslots : ∀ s t, occurrence.slot? = some s →
      (Occurrence.scalars slot false [v]).slot? = some t → s.Apart t := by
    intro s t hs ht
    cases ht
    exact hapart s hs
  obtain ⟨between, hbetween, hnext⟩ := enter_comm hslots hm h hset
  rw [enter_set hrivals] at hbetween
  cases hbetween
  exact hnext

/-- A run over records of other fields does the same to a message in which a property has another
value. -/
theorem decodeInto_frame (hrivals : slot.rivals = []) {number : UInt32}
    (hapart : ∀ n s, n ≠ number → slots n = some s → s.Apart slot) {c : Cursor}
    {numbers : List UInt32} (hnumbers : recordNumbers c = .ok numbers) (hout : number ∉ numbers)
    (hm : m.Sorted) (h : codec.decodeInto slots c m = .ok m') (v : Value) :
    codec.decodeInto slots c (m.set slot.name v) = .ok (m'.set slot.name v) := by
  -- The induction is on the bytes that are left.
  induction hn : c.size using Nat.strongRecOn generalizing c m numbers with
  | _ n ih =>
    subst hn
    by_cases hb : c.bytes = []
    · rw [decodeInto_nil codec _ _ hb] at h ⊢
      cases h
      rfl
    · obtain ⟨occurrence, rest, next, hread, henter, hrest⟩ := exists_step_of_decodeInto hb h
      obtain ⟨first, hnext, hslot⟩ := nextRecord_of_readRecord hread
      obtain ⟨more, hmore, rfl⟩ := exists_of_recordNumbers hb hnext hnumbers
      rw [List.mem_cons, not_or] at hout
      have hstep := enter_frame hrivals
        (fun s hs => hapart first s (Ne.symm hout.1) (hslot.trans hs)) hm henter v
      rw [decodeInto_eq codec slots _ hb, hread]
      simp only [hstep]
      exact ih rest.size (readRecord_moved hread).1.size_lt hmore hout.2 (sorted_enter hm henter)
        hrest rfl

end Frame

theorem exists_recordNumbers {slots : Slots} {c : Cursor} {m m' : Message}
    (h : codec.decodeInto slots c m = .ok m') : ∃ numbers, recordNumbers c = .ok numbers := by
  induction hn : c.size using Nat.strongRecOn generalizing c m with
  | _ n ih =>
    subst hn
    by_cases hb : c.bytes = []
    · exact ⟨[], recordNumbers_nil hb⟩
    · obtain ⟨occurrence, rest, next, hread, -, hrest⟩ := exists_step_of_decodeInto hb h
      obtain ⟨number, hnext, -⟩ := nextRecord_of_readRecord hread
      obtain ⟨numbers, hnumbers⟩ := ih rest.size (readRecord_moved hread).1.size_lt hrest rfl
      exact ⟨number :: numbers, recordNumbers_cons hb hnext hnumbers⟩

/-! ## Parts of a list -/

/-- A part of a list: one run of values, or values with a record each. -/
structure Chunk where
  packed : Bool
  values : List Value

/-- The bytes of a part of the list of a field. -/
def Chunk.bytes (codec : Codec) (info : FieldInfo) (path : String) (chunk : Chunk) :
    Except Error (List UInt8) :=
  if chunk.packed then
    (bodyRecord info.number ·) <$>
      packedBytes info.kind path (chunk.values.map codec.scalarBytes)
  else itemRecords info path (chunk.values.map codec.scalarBytes)

/-- The bytes of the parts of a list, each followed by records of other fields. -/
def chunkedBytes (codec : Codec) (info : FieldInfo) (path : String) :
    List (Chunk × List UInt8) → Except Error (List UInt8)
  | [] => .ok []
  | (chunk, others) :: rest =>
    match chunk.bytes codec info path with
    | .error e => .error e
    | .ok first =>
      match chunkedBytes codec info path rest with
      | .error e => .error e
      | .ok more => .ok (first ++ others ++ more)

theorem pushItems_list (before values : List Value) :
    Value.pushItems (some (.list before)) values = some (.list (before ++ values)) := by
  cases values with
  | nil => rw [List.append_nil]; rfl
  | cons v rest => rfl

theorem rivals_slotOf {decl : MessageDecl} {field : Field} (honeof : field.info.oneof = none) :
    (slotOf decl field).rivals = [] := by
  have hnone : decl.siblings field = [] := List.filter_eq_nil_iff.2 fun g _ => by simp [honeof]
  simp only [slotOf, hnone, List.map_nil]

section Chunks

variable {decl : MessageDecl} {info : FieldInfo} (hnumbers : decl.DistinctNumbers)
  (hf : .plain info ∈ decl.fields) (hrepeated : info.repeated = true)
  (hpack : info.kind.isPackable = true) (honeof : info.oneof = none)
  (hnumber : IsFieldNumber info.number)

include hrepeated hpack in
theorem form_slotOf_packable : (slotOf decl (.plain info)).form = .scalar info.kind true := by
  rw [← hrepeated]
  refine Form.ofKind_of_ne fun target heq => ?_
  rw [heq] at hpack
  cases hpack

include honeof in
/-- A record with values of the list adds them to the list. -/
theorem leads_values {bytes : List UInt8} {values : List Value}
    (htakes : Takes (codec.readRecord (slotsOf decl)) bytes
      (.scalars (slotOf decl (.plain info)) true values))
    {s : Message} {before : List Value} (hbefore : s.get? info.name = some (.list before)) :
    Leads codec (slotsOf decl) bytes s (s.set info.name (.list (before ++ values))) := by
  have hrivals : (slotOf decl (.plain info)).rivals = [] := rivals_slotOf honeof
  refine leads_of_record fun offset =>
    ⟨.scalars (slotOf decl (.plain info)) true values, ?_, ?_⟩
  · have hread := htakes offset []
    rwa [List.append_nil] at hread
  · have hold : s.get? (slotOf decl (.plain info)).name = some (.list before) := hbefore
    rw [enter, hold, absorb, if_pos rfl, pushItems_list, Slot.store, hrivals]
    rfl

include hnumbers hf hrepeated hpack honeof hnumber

theorem leads_items {values : List Value}
    (h : ∀ v ∈ values, Fits codec EnumDecl.Faithful info.kind v) (path : String) :
    ∃ bytes, itemRecords info path (values.map codec.scalarBytes) = .ok bytes ∧
      (bytes.length < UInt64.size → ∀ (s : Message) before, s.Sorted →
        s.get? info.name = some (.list before) →
          Leads codec (slotsOf decl) bytes s (s.set info.name (.list (before ++ values)))) := by
  induction values with
  | nil =>
    refine ⟨[], rfl, fun _ s before hs hbefore => ?_⟩
    rw [List.append_nil, hs.set_self hbefore]
    exact .nil
  | cons v rest ih =>
    rw [List.forall_mem_cons] at h
    obtain ⟨first, hfirst, htakes⟩ :=
      scalarBytes_takes_of_allowed (fun _ _ _ => exists_number_of_faithful) h.1 path
    obtain ⟨more, hmore, hleads⟩ := ih h.2
    refine ⟨encodeTag info.number info.kind.wireType ++ first ++ more, ?_,
      fun hlen s before hs hbefore => ?_⟩
    · simp only [List.map_cons, itemRecords, valueRecord, hfirst, hmore]
    · rw [List.length_append, List.length_append] at hlen
      have hrecord := leads_values honeof (takes_scalarRecord (slotsOf_number hnumbers hf) hnumber
        (form_slotOf_packable hrepeated hpack) (htakes (by omega) _)) hbefore
      have hrest := hleads (by omega) (s.set info.name (.list (before ++ [v]))) (before ++ [v])
        (hs.set _ _) (by rw [Message.get?_set, if_pos rfl])
      rw [hs.set_set, List.append_assoc, List.singleton_append] at hrest
      exact hrecord.append hrest

/-- A part of the list adds its values, however it is written. -/
theorem leads_chunk {chunk : Chunk}
    (h : ∀ v ∈ chunk.values, Fits codec EnumDecl.Faithful info.kind v) (path : String) :
    ∃ bytes, chunk.bytes codec info path = .ok bytes ∧
      (bytes.length < UInt64.size → ∀ (s : Message) before, s.Sorted →
        s.get? info.name = some (.list before) →
          Leads codec (slotsOf decl) bytes s
            (s.set info.name (.list (before ++ chunk.values)))) := by
  rw [Chunk.bytes]
  split
  · obtain ⟨body, hbody, hread⟩ := packedBytes_takes fun v hv =>
      scalarBytes_takes_of_allowed (fun _ _ _ => exists_number_of_faithful) (h v hv) path
    refine ⟨bodyRecord info.number body, by rw [hbody]; rfl, fun hlen s before _ hbefore => ?_⟩
    have hshort : body.length < UInt64.size := by
      rw [bodyRecord, lengthPrefixed, List.length_append, List.length_append] at hlen
      omega
    exact leads_values honeof (takes_packedRecord (slotsOf_number hnumbers hf) hnumber
      (form_slotOf_packable hrepeated hpack) hpack hshort (hread hshort _)) hbefore
  · exact leads_items hnumbers hf hrepeated hpack honeof hnumber h path

end Chunks

/-! ## The whole list -/

/-- Bytes that are a message of a type by themselves, without a record with the field number. -/
structure Others (codec : Codec) (typeName : String) (number : UInt32) (bytes : List UInt8) :
    Prop where
  decodes : ∃ m, codec.decode typeName bytes = .ok m
  avoids : ∀ numbers, recordNumbers (Cursor.start bytes) = .ok numbers → number ∉ numbers

section Whole

variable {typeName : String} {decl : MessageDecl} {info : FieldInfo}
  (htype : codec.message typeName = .ok decl) (hnames : decl.DistinctProperties)
  (hf : .plain info ∈ decl.fields) (honeof : info.oneof = none)

include htype hnames hf honeof

/-- Other records are read into any message, and do the same whatever the list is. -/
theorem Others.exists_leads {bytes : List UInt8} (h : Others codec typeName info.number bytes)
    {m : Message} (hm : m.Sorted) :
    ∃ m', m'.Sorted ∧ Leads codec (slotsOf decl) bytes m m' ∧
      ∀ v, Leads codec (slotsOf decl) bytes (m.set info.name v) (m'.set info.name v) := by
  obtain ⟨alone, halone⟩ := h.decodes
  simp only [decode, htype] at halone
  cases hnew : codec.newMessage decl with
  | error e =>
    simp only [hnew] at halone
    cases halone
  | ok start =>
    simp only [hnew] at halone
    obtain ⟨numbers, hnumbers⟩ := exists_recordNumbers halone
    obtain ⟨m', hm', -⟩ := exists_of_decodeInto_covered halone (coveredBy_of_newMessage hnew m)
    refine ⟨m', sorted_decodeInto hm hm', (leads_iff 0).2 hm', fun v => (leads_iff 0).2 ?_⟩
    have hrivals : (slotOf decl (.plain info)).rivals = [] := rivals_slotOf honeof
    refine decodeInto_frame hrivals ?_ hnumbers (h.avoids numbers hnumbers) hm hm' v
    intro n s hne hs
    obtain ⟨g, hg, hgn, rfl⟩ := exists_numbered_of_slotsOf hs
    refine apart_slotOf hnames hg hf ?_ fun hmember heq => ?_
    · rintro rfl
      exact hne hgn.symm
    · rw [heq, show (Field.plain info).info.oneof = none from honeof] at hmember
      cases hmember

variable (hnumbers : decl.DistinctNumbers) (hrepeated : info.repeated = true)
  (hpack : info.kind.isPackable = true) (hnumber : IsFieldNumber info.number)

include hnumbers hrepeated hpack hnumber

theorem leads_chunkedBytes {pieces : List (Chunk × List UInt8)}
    (hfits : ∀ piece ∈ pieces, ∀ v ∈ piece.1.values, Fits codec EnumDecl.Faithful info.kind v)
    (hothers : ∀ piece ∈ pieces, Others codec typeName info.number piece.2) (path : String) :
    ∃ bytes, chunkedBytes codec info path pieces = .ok bytes ∧
      (bytes.length < UInt64.size → ∀ (m : Message) before, m.Sorted →
        ∃ m', Leads codec (slotsOf decl) (pieces.flatMap (·.2)) m m' ∧
          Leads codec (slotsOf decl) bytes (m.set info.name (.list before))
            (m'.set info.name (.list (before ++ pieces.flatMap (·.1.values))))) := by
  induction pieces with
  | nil =>
    refine ⟨[], rfl, fun _ m before _ => ⟨m, .nil, ?_⟩⟩
    rw [List.flatMap_nil, List.append_nil]
    exact .nil
  | cons piece rest ih =>
    obtain ⟨chunk, others⟩ := piece
    rw [List.forall_mem_cons] at hfits hothers
    obtain ⟨first, hfirst, hchunk⟩ :=
      leads_chunk hnumbers hf hrepeated hpack honeof hnumber hfits.1 path
    obtain ⟨more, hmore, hrest⟩ := ih hfits.2 hothers.2
    refine ⟨first ++ others ++ more, ?_, fun hlen m before hm => ?_⟩
    · simp only [chunkedBytes, hfirst, hmore]
    · rw [List.length_append, List.length_append] at hlen
      -- the part is added, the other records pass by the list, and so on from there
      have hadded := hchunk (by omega) (m.set info.name (.list before)) before (hm.set _ _)
        (by rw [Message.get?_set, if_pos rfl])
      rw [hm.set_set] at hadded
      obtain ⟨between, hbetween, halone, hpassed⟩ := hothers.1.exists_leads htype hnames hf honeof hm
      obtain ⟨m', hothers', hlists⟩ :=
        hrest (by omega) between (before ++ chunk.values) hbetween
      refine ⟨m', ?_, ?_⟩
      · rw [List.flatMap_cons]
        exact halone.append hothers'
      · rw [List.flatMap_cons, ← List.append_assoc]
        exact (hadded.append (hpassed _)).append hlists

end Whole

/-- A list of a packable kind can be cut into parts, each written as one run or with a record for
each value, with records of other fields before, between and behind them: the field holds the list
in its order, and everything else is as if the list had not been there. -/
theorem decode_chunks (hresolved : codec.Resolved) {typeName : String} {decl : MessageDecl}
    (htype : codec.message typeName = .ok decl) (hnumbers : decl.DistinctNumbers)
    (hnames : decl.DistinctProperties) {info : FieldInfo} (hf : .plain info ∈ decl.fields)
    (hrepeated : info.repeated = true) (hpack : info.kind.isPackable = true)
    (honeof : info.oneof = none) (hnumber : IsFieldNumber info.number) {first : List UInt8}
    {pieces : List (Chunk × List UInt8)}
    (hfits : ∀ piece ∈ pieces, ∀ v ∈ piece.1.values, Fits codec EnumDecl.Faithful info.kind v)
    (hfirst : Others codec typeName info.number first)
    (hothers : ∀ piece ∈ pieces, Others codec typeName info.number piece.2) :
    ∃ bytes, chunkedBytes codec info (fieldPath decl info) pieces = .ok bytes ∧
      (bytes.length < UInt64.size →
        ∃ m, codec.decode typeName (first ++ pieces.flatMap (·.2)) = .ok m ∧
          codec.decode typeName (first ++ bytes) =
            .ok (m.set info.name (.list (pieces.flatMap (·.1.values))))) := by
  have hformed : (Field.plain info).Formed := by
    cases hresolved with | intro hbuild options =>
      exact (formed_of_build hbuild options decl (mem_of_message htype)).fields _ hf
  obtain ⟨bytes, hbytes, hlead⟩ := leads_chunkedBytes htype hnames hf honeof hnumbers hrepeated
    hpack hnumber hfits hothers (fieldPath decl info)
  refine ⟨bytes, hbytes, fun hlen => ?_⟩
  obtain ⟨alone, halone⟩ := hfirst.decodes
  simp only [decode, htype] at halone ⊢
  cases hnew : codec.newMessage decl with
  | error e =>
    simp only [hnew] at halone
    cases halone
  | ok start =>
    obtain rfl := eq_fresh_of_newMessage hnames hnew
    have hsorted := sorted_fresh codec decl
    have hempty : (codec.fresh decl).get? info.name = some (.list []) :=
      (get?_fresh hnames hf).trans (defaultOf_list hformed hrepeated)
    obtain ⟨between, hbetween, hothers', hpassed⟩ :=
      hfirst.exists_leads htype hnames hf honeof hsorted
    obtain ⟨m, hothers, hlists⟩ := hlead hlen between [] hbetween
    have hstart := hpassed (.list [])
    rw [hsorted.set_self hempty] at hstart
    rw [List.nil_append] at hlists
    exact ⟨m, (hothers'.append hothers) 0, (hstart.append hlists) 0⟩

/-- The file that declares stands of trees: the kinds of the trees, under the given field number, and
the name of the stand. -/
def standFile (number : Int32) : FileDescriptor :=
  { name := some "grove.proto"
    package := "grove"
    dialect := "proto3"
    enums := [{ name := "Kind", values := [⟨"UNKNOWN", 0⟩, ⟨"FIR", 1⟩, ⟨"OAK", 2⟩] }]
    messages := [
      { name := "Stand"
        fields := [
          { name := "trees", number, label := .repeated, type := .enum, typeName := ".grove.Kind" },
          { name := "name", number := 2, type := .string }] }] }

/-- The kinds of the trees of a stand. -/
def standTrees (number : UInt32) : FieldInfo :=
  groveField "trees" "trees" number (.enum (groveRef "Kind" .enum)) true none

/-- Stands. -/
def standDecl (number : UInt32) : MessageDecl :=
  { name := "Stand", fqName := "grove.Stand", shortName := "Stand", isMapEntry := false
    fields := [.plain (standTrees number), .plain (groveField "name" "name" 2 .string false none)]
    comment := none }

/-- The codec of stands. -/
def stands (number : UInt32) : Codec :=
  { messages := [standDecl number], enums := [groveKind], emitDefaults := false
    protoNames := false }

/-- A fir and a tree of an unknown kind in one run, a name, an empty run, and two oaks in a record
each before a record that nobody knows. -/
def standPieces : List (Chunk × List UInt8) :=
  [(⟨true, [.enum (.named "FIR"), .enum (.unknown 9)]⟩, [18, 1, 120]), (⟨true, []⟩, []),
    (⟨false, [.enum (.named "OAK"), .enum (.named "OAK")]⟩, [24, 1])]

theorem others_of_recordNumbers {typeName : String} {number : UInt32} {bytes : List UInt8}
    {m : Message} {numbers : List UInt32} (hdecode : codec.decode typeName bytes = .ok m)
    (hnumbers : recordNumbers (Cursor.start bytes) = .ok numbers) (hout : number ∉ numbers) :
    Others codec typeName number bytes := by
  refine ⟨⟨m, hdecode⟩, fun numbers' hnumbers' => ?_⟩
  cases hnumbers.symm.trans hnumbers'
  exact hout

theorem decode_chunks_stand :
    (stands 1).Resolved ∧
      chunkedBytes (stands 1) (standTrees 1) "grove.Stand.trees" standPieces =
        .ok [10, 2, 1, 9, 18, 1, 120, 10, 0, 8, 2, 8, 2, 24, 1] ∧
      (stands 1).decode "grove.Stand" ([18, 1, 121] ++
          [10, 2, 1, 9, 18, 1, 120, 10, 0, 8, 2, 8, 2, 24, 1]) =
        .ok ⟨"grove.Stand", [("name", .string "x"), ("trees", .list [.enum (.named "FIR"),
          .enum (.unknown 9), .enum (.named "OAK"), .enum (.named "OAK")])]⟩ := by
  have hresolved : (stands 1).Resolved :=
    resolved_of_build [standFile 1] ["grove.proto"] .javaScript {} (by cbv)
  have htype : (stands 1).message "grove.Stand" = .ok (standDecl 1) := by decide +kernel
  have hkind : (stands 1).enumeration "grove.Kind" = .ok groveKind := by decide +kernel
  have hwritten : chunkedBytes (stands 1) (standTrees 1) "grove.Stand.trees" standPieces =
      .ok [10, 2, 1, 9, 18, 1, 120, 10, 0, 8, 2, 8, 2, 24, 1] := by
    cbv
  have hfir : groveKind.Faithful (.named "FIR") := ⟨1, by decide +kernel, by decide +kernel⟩
  have hoak : groveKind.Faithful (.named "OAK") := ⟨2, by decide +kernel, by decide +kernel⟩
  have hunknown : groveKind.Faithful (.unknown 9) := by
    show groveKind.nameOf? 9 = none
    decide +kernel
  have hfits : ∀ piece ∈ standPieces, ∀ v ∈ piece.1.values,
      Fits (stands 1) EnumDecl.Faithful (standTrees 1).kind v := by
    simp only [standPieces, List.forall_mem_cons, List.not_mem_nil, false_implies, implies_true,
      and_true, true_and]
    exact ⟨⟨.enum hkind hfir, .enum hkind hunknown⟩, .enum hkind hoak, .enum hkind hoak⟩
  have htitle : recordNumbers (Cursor.start [18, 1, 121]) = .ok [2] := by cbv
  have hname : recordNumbers (Cursor.start [18, 1, 120]) = .ok [2] := by cbv
  have hstray : recordNumbers (Cursor.start [24, 1]) = .ok [3] := by cbv
  have hfirst : Others (stands 1) "grove.Stand" 1 [18, 1, 121] :=
    others_of_recordNumbers (m := ⟨"grove.Stand", [("name", .string "y"), ("trees", .list [])]⟩)
      (by cbv) htitle (by decide)
  have hothers : ∀ piece ∈ standPieces, Others (stands 1) "grove.Stand" 1 piece.2 := by
    simp only [standPieces, List.forall_mem_cons, List.not_mem_nil, false_implies, implies_true,
      and_true]
    refine ⟨?_, ?_, ?_⟩
    · exact others_of_recordNumbers
        (m := ⟨"grove.Stand", [("name", .string "x"), ("trees", .list [])]⟩) (by cbv) hname
        (by decide)
    · exact others_of_recordNumbers
        (m := ⟨"grove.Stand", [("name", .string ""), ("trees", .list [])]⟩) (by cbv)
        (recordNumbers_nil rfl) List.not_mem_nil
    · exact others_of_recordNumbers
        (m := ⟨"grove.Stand", [("name", .string ""), ("trees", .list [])]⟩) (by cbv) hstray
        (by decide)
  have hwithout : (stands 1).decode "grove.Stand" ([18, 1, 121] ++ standPieces.flatMap (·.2)) =
      .ok ⟨"grove.Stand", [("name", .string "x"), ("trees", .list [])]⟩ := by
    cbv
  have hfield : .plain (standTrees 1) ∈ (standDecl 1).fields := List.mem_cons_self
  obtain ⟨bytes, hbytes, hdecode⟩ := decode_chunks hresolved htype (by decide +kernel)
    (by decide +kernel) hfield rfl rfl rfl (by decide) hfits hfirst hothers
  cases hwritten.symm.trans hbytes
  obtain ⟨m, hm, hlist⟩ := hdecode (by decide)
  cases hwithout.symm.trans hm
  exact ⟨hresolved, hwritten, hlist⟩

/-- A field can be declared with the number 0, but no record can have it. -/
theorem decode_chunks_number_zero :
    (stands 0).Resolved ∧
      chunkedBytes (stands 0) (standTrees 0) "grove.Stand.trees"
        [(⟨false, [.enum (.named "UNKNOWN")]⟩, [])] = .ok [0, 0] ∧
      (stands 0).decode "grove.Stand" [0, 0] = .error (.fieldNumber 0) := by
  refine ⟨resolved_of_build [standFile 0] ["grove.proto"] .javaScript {} (by cbv), by cbv, by cbv⟩

end Codec
end ProtoStub
