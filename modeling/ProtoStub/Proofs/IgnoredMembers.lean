import Mathlib
import ProtoStub.Proofs.Decision
import ProtoStub.Proofs.JsonMembers

/-!
# Members that are ignored

An object that is read as a message may have members that say nothing: those that are null, and
those whose name no field is looked for under. `IgnoredEdit` adds one of them, to the document
itself or to an object further inside that is read as a message too, through fields, items of lists
and values of maps. Documents that are joined by such edits, forth and back, are read as the same
message or refused for the same reason (`ofJson_eq_of_ignoredEdits`).

Each field is read by itself from the first of its names that has a document other than null
(`Field.given?`), so one edit is followed field by field: what a field is given is either the same
as before or was edited inside. Two fields may be looked for under one name. A document that is
there under such a name counts as edited only if it is for both fields, since one of them may be no
message and quote the document where it refuses it (`ofJson_sharedName`).
-/

namespace ProtoStub

namespace KeyMap

variable {α : Type}

theorem find?_append (m n : KeyMap α) (key : String) :
    find? (m ++ n) key = (find? m key).or (find? n key) := by
  induction m with
  | nil => simp
  | cons p rest ih =>
    rw [List.cons_append, find?_cons, find?_cons, ih]
    split <;> simp

end KeyMap

namespace Codec

/-! ## Edits -/

/-- A change of what a field is given: the object that it is read from, an item of the array or a
member of the object is a document of a message, and changed as `nested` says. -/
inductive FieldEdit (codec : Codec) (nested : MessageDecl → Json → Json → Prop) :
    Field → Json → Json → Prop
  | single {info : FieldInfo} {target : TypeRef} {inner : MessageDecl} {j j' : Json}
      (single : info.repeated = false) (kind : info.kind = .message target)
      (resolves : codec.message target.fqName = .ok inner) (edit : nested inner j j') :
      FieldEdit codec nested (.plain info) j j'
  | item {info : FieldInfo} {target : TypeRef} {inner : MessageDecl} {before after : List Json}
      {j j' : Json} (repeated : info.repeated = true) (kind : info.kind = .message target)
      (resolves : codec.message target.fqName = .ok inner) (edit : nested inner j j') :
      FieldEdit codec nested (.plain info) (.array (before ++ j :: after))
        (.array (before ++ j' :: after))
  | entry {info : FieldInfo} {key value : Field} {target : TypeRef} {inner : MessageDecl}
      {before after : List (String × Json)} {name : String} {j j' : Json}
      (kind : value.info.kind = .message target)
      (resolves : codec.message target.fqName = .ok inner) (edit : nested inner j j') :
      FieldEdit codec nested (.map info key value) (.object (before ++ (name, j) :: after))
        (.object (before ++ (name, j') :: after))

/-- One member more that is ignored where a message of a type is read: in the object of the message
itself, or inside one of its members. -/
inductive IgnoredEdit (codec : Codec) : MessageDecl → Json → Json → Prop
  | add {decl : MessageDecl} {before after : List (String × Json)} {name : String} {j : Json}
      (absent : name ∉ (before ++ after).map Prod.fst)
      (ignored : j.isNull = true ∨ ∀ field ∈ decl.fields, name ∉ field.info.readNames) :
      IgnoredEdit codec decl (.object (before ++ after)) (.object (before ++ (name, j) :: after))
  | inside {decl : MessageDecl} {before after : List (String × Json)} {name : String}
      {j j' : Json} (edits : ∀ field ∈ decl.fields, name ∈ field.info.readNames →
        FieldEdit codec (IgnoredEdit codec) field j j') :
      IgnoredEdit codec decl (.object (before ++ (name, j) :: after))
        (.object (before ++ (name, j') :: after))

/-- Two documents are read alike as messages of a type, whatever they are read into. -/
def ReadAlike (codec : Codec) (decl : MessageDecl) (j j' : Json) : Prop :=
  ∀ start, (codec.jsonView j).message decl start = (codec.jsonView j').message decl start

/-- Two documents are read alike into a field, whatever it holds. -/
def FieldAlike (codec : Codec) (field : Field) (j j' : Json) : Prop :=
  ∀ path old, codec.contentOfJson field path old (codec.jsonView j) =
    codec.contentOfJson field path old (codec.jsonView j')

variable {codec : Codec} {nested : MessageDecl → Json → Json → Prop}

/-! ## Fields -/

theorem ReadAlike.value {target : TypeRef} {inner : MessageDecl} {j j' : Json}
    (h : ReadAlike codec inner j j') (hinner : codec.message target.fqName = .ok inner)
    (path : String) :
    (codec.jsonView j).value codec (.message target) path =
      (codec.jsonView j').value codec (.message target) path := by
  simp only [JsonView.value, hinner, bind, Except.bind, h _]

theorem itemsOfJson_replace {kind : FieldKind} {path : String}
    {read read' : FieldKind → String → Except Error Value} (h : read kind path = read' kind path)
    (before after : List (FieldKind → String → Except Error Value)) :
    itemsOfJson kind path (before ++ read :: after) =
      itemsOfJson kind path (before ++ read' :: after) := by
  induction before with
  | nil => simp only [List.nil_append, itemsOfJson, h]
  | cons first rest ih => simp only [List.cons_append, itemsOfJson, ih]

theorem entriesOfJson_replace {kind : FieldKind} {path key : String}
    {read read' : FieldKind → String → Except Error Value} (h : read kind path = read' kind path)
    (before after : List (String × (FieldKind → String → Except Error Value)))
    (entries : KeyMap Value) :
    entriesOfJson kind path entries (before ++ (key, read) :: after) =
      entriesOfJson kind path entries (before ++ (key, read') :: after) := by
  induction before generalizing entries with
  | nil => simp only [List.nil_append, entriesOfJson, h]
  | cons first rest ih => simp only [List.cons_append, entriesOfJson, ih]

/-- A change inside what a field is given goes unnoticed if the messages there are read alike. -/
theorem FieldEdit.alike {field : Field} {j j' : Json}
    (h : FieldEdit codec (ReadAlike codec) field j j') : FieldAlike codec field j j' := by
  intro path old
  cases h with
  | @single info target inner j j' hsingle hkind hinner hedit =>
    simp only [contentOfJson, hsingle, Bool.false_eq_true, if_false, hkind]
    split
    next hsame =>
      cases hsame
      simp only [hinner, bind, Except.bind, hedit _]
    · exact hedit.value hinner path
  | @item info target inner before after j j' hrep hkind hinner hedit =>
    simp only [contentOfJson, hrep, if_true, hkind, jsonView, itemViews_eq_map, List.map_append,
      List.map_cons]
    rw [itemsOfJson_replace (hedit.value hinner path)]
  | @entry info key value target inner before after name j j' hkind hinner hedit =>
    simp only [contentOfJson, hkind, jsonView, memberViews_eq_map, List.map_append, List.map_cons]
    rw [entriesOfJson_replace (hedit.value hinner path)]

theorem FieldAlike.refl (field : Field) (j : Json) : FieldAlike codec field j j :=
  fun _ _ => rfl

theorem IgnoredEdit.not_null {decl : MessageDecl} {j j' : Json} (h : IgnoredEdit codec decl j j') :
    j.isNull = false ∧ j'.isNull = false := by
  cases h <;> exact ⟨rfl, rfl⟩

/-! ## What fields are given -/

/-- The document other than null that an object has under a name. -/
def documentAt? (members : List (String × Json)) (name : String) : Option Json :=
  (KeyMap.find? members name).filter (!·.isNull)

theorem rel_or {R : Json → Json → Prop} {a a' b b' : Option Json} (ha : Option.Rel R a a')
    (hb : Option.Rel R b b') : Option.Rel R (a.or b) (a'.or b') := by
  cases ha with
  | none => simpa using hb
  | some h => simpa using Option.Rel.some h

theorem find?_filterMap_cons (members : List (String × Json)) (name : String)
    (rest : List String) :
    ((name :: rest).filterMap (KeyMap.find? members)).find? (!·.isNull) =
      (documentAt? members name).or
        ((rest.filterMap (KeyMap.find? members)).find? (!·.isNull)) := by
  rw [List.filterMap_cons, documentAt?]
  cases KeyMap.find? members name with
  | none => rfl
  | some j =>
    rw [Option.filter_some, List.find?_cons]
    cases j.isNull <;> rfl

/-- What a field is given is told name by name. -/
theorem rel_given? {R : Json → Json → Prop} {members members' : List (String × Json)}
    {field : Field} (h : ∀ name ∈ field.info.readNames,
      Option.Rel R (documentAt? members name) (documentAt? members' name)) :
    Option.Rel R (field.given? (.object members)) (field.given? (.object members')) := by
  simp only [Field.given?, Json.members]
  generalize field.info.readNames = names at h ⊢
  induction names with
  | nil => exact .none
  | cons name rest ih =>
    rw [List.forall_mem_cons] at h
    rw [find?_filterMap_cons, find?_filterMap_cons]
    exact rel_or h.1 (ih h.2)

/-- Documents are read alike as messages if every field is given documents that it reads alike. -/
theorem readAlike_of_given? {decl : MessageDecl} {members members' : List (String × Json)}
    (h : ∀ field ∈ decl.fields, Option.Rel (FieldAlike codec field)
      (field.given? (.object members)) (field.given? (.object members'))) :
    ReadAlike codec decl (.object members) (.object members') := by
  have hfields (fields : List Field) (start : Message) (h : ∀ field ∈ fields,
      Option.Rel (FieldAlike codec field) (field.given? (.object members))
        (field.given? (.object members'))) :
      codec.fieldsOfJson decl (codec.memberViews members) fields start =
        codec.fieldsOfJson decl (codec.memberViews members') fields start := by
    induction fields generalizing start with
    | nil => rfl
    | cons field rest ih =>
      rw [List.forall_mem_cons] at h
      obtain ⟨hfield, hrest⟩ := h
      simp only [fieldsOfJson, firstPresent?_memberViews]
      generalize field.given? (.object members) = given, field.given? (.object members') = given'
        at hfield
      cases hfield with
      | none => exact ih start hrest
      | some halike => simp only [Option.map_some, halike _ _, ih _ hrest]
  intro start
  exact hfields decl.fields start h

/-! ## One edit -/

section

variable {decl : MessageDecl} {before after : List (String × Json)} {name : String} {j j' : Json}

theorem documentAt?_add (habsent : name ∉ (before ++ after).map Prod.fst) {other : String}
    (hignored : name = other → j.isNull = true) :
    documentAt? (before ++ (name, j) :: after) other = documentAt? (before ++ after) other := by
  simp only [documentAt?, KeyMap.find?_append, KeyMap.find?_cons]
  by_cases hname : name = other
  · have hnone : KeyMap.find? (before ++ after) other = none := by
      rw [KeyMap.find?_eq_none]
      rintro p hp rfl
      exact habsent (hname ▸ List.mem_map_of_mem hp)
    rw [KeyMap.find?_append, Option.or_eq_none_iff] at hnone
    simp [hname, hnone, hignored hname]
  · rw [if_neg hname]

theorem documentAt?_inside {R : Json → Json → Prop} (hrefl : ∀ j, R j j) {other : String}
    (h : name = other → R j j' ∧ j.isNull = false ∧ j'.isNull = false) :
    Option.Rel R (documentAt? (before ++ (name, j) :: after) other)
      (documentAt? (before ++ (name, j') :: after) other) := by
  have hself (given : Option Json) : Option.Rel R given given := by
    cases given with
    | none => exact .none
    | some j => exact .some (hrefl j)
  simp only [documentAt?, KeyMap.find?_append, KeyMap.find?_cons]
  by_cases hname : name = other
  · obtain ⟨hedit, hj, hj'⟩ := h hname
    cases KeyMap.find? before other with
    | some first => exact hself _
    | none =>
      simp only [hname, if_true, Option.none_or, Option.filter_some, hj, hj', Bool.not_false]
      exact .some hedit
  · rw [if_neg hname, if_neg hname]
    exact hself _

theorem readAlike_add (habsent : name ∉ (before ++ after).map Prod.fst)
    (hignored : j.isNull = true ∨ ∀ field ∈ decl.fields, name ∉ field.info.readNames) :
    ReadAlike codec decl (.object (before ++ after)) (.object (before ++ (name, j) :: after)) := by
  refine readAlike_of_given? fun field hf => rel_given? fun other hother => ?_
  rw [documentAt?_add habsent]
  · cases documentAt? (before ++ after) other with
    | none => exact .none
    | some j => exact .some (.refl field j)
  · rintro rfl
    exact hignored.resolve_right fun hunread => hunread field hf hother

theorem readAlike_inside (h : ∀ field ∈ decl.fields, name ∈ field.info.readNames →
      FieldAlike codec field j j' ∧ j.isNull = false ∧ j'.isNull = false) :
    ReadAlike codec decl (.object (before ++ (name, j) :: after))
      (.object (before ++ (name, j') :: after)) := by
  refine readAlike_of_given? fun field hf => rel_given? fun other hother => ?_
  refine documentAt?_inside (FieldAlike.refl field) ?_
  rintro rfl
  exact h field hf hother

-- The induction is on the edit; what is shown of a field takes in that it is given no null, so that
-- it is found under the same name before and after.
theorem IgnoredEdit.readAlike (h : IgnoredEdit codec decl j j') : ReadAlike codec decl j j' := by
  refine @IgnoredEdit.rec codec (fun decl j j' _ => ReadAlike codec decl j j')
    (fun field j j' _ => FieldAlike codec field j j' ∧ j.isNull = false ∧ j'.isNull = false)
    ?_ ?_ ?_ ?_ ?_ decl j j' h
  · intro decl before after name j habsent hignored
    exact readAlike_add habsent hignored
  · intro decl before after name j j' _ ih
    exact readAlike_inside ih
  · intro info target inner j j' hsingle hkind hinner hedit ih
    exact ⟨(FieldEdit.single hsingle hkind hinner ih).alike, hedit.not_null⟩
  · intro info target inner before after j j' hrep hkind hinner _ ih
    exact ⟨(FieldEdit.item hrep hkind hinner ih).alike, rfl, rfl⟩
  · intro info key value target inner before after name j j' hkind hinner _ ih
    exact ⟨(FieldEdit.entry hkind hinner ih).alike, rfl, rfl⟩

theorem readAlike_of_ignoredEdits (h : Relation.EqvGen (IgnoredEdit codec decl) j j') :
    ReadAlike codec decl j j' := by
  induction h with
  | rel j j' hedit => exact hedit.readAlike
  | refl j => exact fun _ => rfl
  | symm j j' _ ih => exact fun start => (ih start).symm
  | trans j k l _ _ ih ih' => exact fun start => (ih start).trans (ih' start)

end

/-! ## Documents that differ in ignored members -/

/-- Members that are null or that no field is looked for under can be added and removed, in the
document and in every object in it that is read as a message, and the document is read as the same
message or refused for the same reason. -/
theorem ofJson_eq_of_ignoredEdits {typeName : String} {j j' : Json}
    (h : ∀ decl, codec.message typeName = .ok decl →
      Relation.EqvGen (IgnoredEdit codec decl) j j') :
    codec.ofJson typeName j = codec.ofJson typeName j' := by
  cases hdecl : codec.message typeName with
  | error e => simp only [ofJson, hdecl]
  | ok decl =>
    have halike := readAlike_of_ignoredEdits (h decl hdecl)
    simp only [ofJson, hdecl, halike _]

/-- A tree with a branch whose owner is the person `x`, with the given members besides. -/
def branchJson (inBranch members : List (String × Json)) : Json :=
  .object (("branches", .array [.object (("person", .string "x") :: inBranch)]) :: members)

/-- A branch loses a height that is null, and the tree a member that nobody knows. Then the tree
gets a null. -/
theorem ofJson_eq_of_ignoredEdits_grove :
    Relation.EqvGen (IgnoredEdit (grove .double {}) (groveTree .double))
        (branchJson [("treeHeight", .null)] [("zone", .bool true)])
        (branchJson [] [("club", .null)]) ∧
      (grove .double {}).ofJson "grove.Tree"
          (branchJson [("treeHeight", .null)] [("zone", .bool true)]) =
        (grove .double {}).ofJson "grove.Tree" (branchJson [] [("club", .null)]) := by
  have htree : (grove .double {}).message "grove.Tree" = .ok (groveTree .double) := by
    decide +kernel
  have hreaders : ∀ field ∈ (groveTree .double).fields, "branches" ∈ field.info.readNames →
      field = .plain (groveField "branches" "branches" 2 (.message (groveRef "Tree" .message))
        true none) := by
    decide +kernel
  have hunread : ∀ field ∈ (groveTree .double).fields, "zone" ∉ field.info.readNames := by
    decide +kernel
  have hbranch := @IgnoredEdit.add (grove .double {}) (groveTree .double)
    [("person", .string "x")] [] "treeHeight" .null (by decide) (.inl rfl)
  have hinside := @IgnoredEdit.inside (grove .double {}) (groveTree .double) []
    [("zone", .bool true)] "branches" (.array [.object [("person", .string "x")]])
    (.array [.object [("person", .string "x"), ("treeHeight", .null)]]) fun field hf hname => by
      rw [hreaders field hf hname]
      exact @FieldEdit.item _ _ _ _ _ [] [] _ _ rfl rfl htree hbranch
  have hzone := @IgnoredEdit.add (grove .double {}) (groveTree .double)
    [("branches", .array [.object [("person", .string "x")]])] [] "zone" (.bool true)
    (by decide) (.inr hunread)
  have hclub := @IgnoredEdit.add (grove .double {}) (groveTree .double)
    [("branches", .array [.object [("person", .string "x")]])] [] "club" .null
    (by decide) (.inl rfl)
  have hedits : Relation.EqvGen (IgnoredEdit (grove .double {}) (groveTree .double))
      (branchJson [("treeHeight", .null)] [("zone", .bool true)])
      (branchJson [] [("club", .null)]) :=
    .trans _ _ _ (.symm _ _ (.rel _ _ hinside)) <|
      .trans _ _ _ (.symm _ _ (.rel _ _ hzone)) (.rel _ _ hclub)
  refine ⟨hedits, ofJson_eq_of_ignoredEdits fun decl hdecl => ?_⟩
  cases htree.symm.trans hdecl
  exact hedits

/-- The file that declares leaves, which have a field that is read under the name of another. -/
def leafFile : FileDescriptor :=
  { name := some "grove.proto"
    package := "grove"
    dialect := "proto3"
    messages := [
      { name := "Leaf"
        fields := [
          { name := "blade", number := 1, type := .message, typeName := ".grove.Leaf",
            jsonName := some "leaf_size" },
          { name := "leaf_size", number := 2, type := .int32 }] }] }

/-- The blade of a leaf, which goes by the name of its size in JSON. -/
def leafBlade : Field :=
  .plain { groveField "blade" "blade" 1 (.message (groveRef "Leaf" .message)) false none with
    jsonName := "leaf_size", customJsonName := some "leaf_size" }

/-- Leaves. -/
def leafDecl : MessageDecl :=
  { name := "Leaf", fqName := "grove.Leaf", shortName := "Leaf", isMapEntry := false
    fields := [leafBlade, .plain (groveField "leafSize" "leaf_size" 2 .int32 false none)]
    comment := none }

/-- The codec of leaves. -/
def leaves : Codec :=
  { messages := [leafDecl], enums := [], emitDefaults := false, protoNames := false }

/-- The blade of a leaf gets a null member, which it ignores. The size of the leaf is read from the
same object, and refuses it in the words of the document. -/
theorem ofJson_sharedName :
    leaves.Resolved ∧
      FieldEdit leaves (IgnoredEdit leaves) leafBlade (.object []) (.object [("vein", .null)]) ∧
      leaves.ofJson "grove.Leaf" (.object [("leaf_size", .object [])]) =
        .error (.invalidValue "grove.Leaf.leafSize" "expected a 32-bit integer, got \x7b\x7d") ∧
      leaves.ofJson "grove.Leaf" (.object [("leaf_size", .object [("vein", .null)])]) =
        .error (.invalidValue "grove.Leaf.leafSize"
          "expected a 32-bit integer, got \x7b\"vein\":null\x7d") := by
  refine ⟨resolved_of_build [leafFile] ["grove.proto"] .javaScript {} (by cbv), ?_, ?_, ?_⟩
  · have hleaf : leaves.message "grove.Leaf" = .ok leafDecl := by decide +kernel
    exact .single rfl rfl hleaf (@IgnoredEdit.add leaves leafDecl [] [] "vein" .null (by decide)
      (.inl rfl))
  · cbv
  · cbv

end Codec
end ProtoStub
