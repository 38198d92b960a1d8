import ProtoStub.Value.Basic

/-!
# Sorted key maps

A map whose keys increase strictly is determined by its look-ups (`Sorted.ext`), and
insertion and removal keep the keys in order. Messages inherit both facts, so two messages
of one type are equal once every property of one is the same in the other
(`Message.ext_get?`).
-/

namespace ProtoStub

namespace KeyMap

variable {α β : Type}

/-! ## Order -/

theorem sorted_nil : Sorted ([] : KeyMap α) := List.Pairwise.nil

theorem Sorted.tail {p : String × α} {m : KeyMap α} (h : Sorted (p :: m)) : Sorted m :=
  (List.pairwise_cons.1 h).2

theorem Sorted.head_lt {p : String × α} {m : KeyMap α} (h : Sorted (p :: m)) :
    ∀ q ∈ m, p.1 < q.1 :=
  (List.pairwise_cons.1 h).1

theorem mem_insert {m : KeyMap α} {key : String} {value : α} {p : String × α}
    (h : p ∈ insert m key value) : p = (key, value) ∨ p ∈ m := by
  induction m with
  | nil => exact .inl (List.mem_singleton.1 h)
  | cons q rest ih =>
    unfold insert at h
    split at h
    · exact List.mem_cons.1 h
    split at h
    · rcases List.mem_cons.1 h with h | h
      · exact .inl h
      · exact .inr (List.mem_cons_of_mem _ h)
    · rcases List.mem_cons.1 h with rfl | h
      · exact .inr List.mem_cons_self
      · rcases ih h with h | h
        · exact .inl h
        · exact .inr (List.mem_cons_of_mem _ h)

/-- Insertion keeps the keys in order. -/
theorem Sorted.insert {m : KeyMap α} (h : Sorted m) (key : String) (value : α) :
    Sorted (KeyMap.insert m key value) := by
  induction m with
  | nil => exact List.pairwise_singleton _ _
  | cons q rest ih =>
    obtain ⟨k, v⟩ := q
    unfold KeyMap.insert
    split
    next hlt =>
      refine List.pairwise_cons.2 ⟨fun p hp => ?_, h⟩
      rcases List.mem_cons.1 hp with rfl | hp
      · exact hlt
      · exact String.lt_trans hlt (h.head_lt p hp)
    next hge =>
      split
      next heq =>
        subst heq
        exact List.pairwise_cons.2 ⟨h.head_lt, h.tail⟩
      next hne =>
        have hlt : k < key := by
          rcases String.le_total key k with hle | hle
          · exact absurd (String.le_antisymm hle (String.not_lt.1 hge)) hne
          · exact String.not_le.1 fun hle' => hne (String.le_antisymm hle' hle)
        refine List.pairwise_cons.2 ⟨fun p hp => ?_, ih h.tail⟩
        rcases mem_insert hp with rfl | hp
        · exact hlt
        · exact h.head_lt p hp

/-- Removal keeps the keys in order. -/
theorem Sorted.erase {m : KeyMap α} (h : Sorted m) (key : String) :
    Sorted (KeyMap.erase m key) :=
  List.Pairwise.filter _ h

/-- Changing the values keeps the keys in order. -/
theorem Sorted.map {m : KeyMap α} (h : Sorted m) (f : String × α → β) :
    Sorted (m.map fun p => (p.1, f p)) :=
  List.Pairwise.map _ (fun _ _ hlt => hlt) h

/-- Whether a map is sorted shows in its keys. -/
theorem Sorted.of_keys {m : KeyMap α} {n : KeyMap β} (h : Sorted m)
    (hkeys : n.map Prod.fst = m.map Prod.fst) : Sorted n := by
  have hm : (m.map Prod.fst).Pairwise (· < ·) := List.pairwise_map.2 h
  rw [← hkeys] at hm
  exact List.pairwise_map.1 hm

/-! ## Look-ups determine the map -/

theorem mem_of_find? {m : KeyMap α} {key : String} {value : α} (h : find? m key = some value) :
    (key, value) ∈ m := by
  induction m with
  | nil => cases h
  | cons q rest ih =>
    rw [find?_cons] at h
    split at h
    next hk =>
      cases h
      subst hk
      exact List.mem_cons_self
    · exact List.mem_cons_of_mem _ (ih h)

theorem find?_eq_none {m : KeyMap α} {key : String} :
    find? m key = none ↔ ∀ p ∈ m, p.1 ≠ key := by
  induction m with
  | nil => simp
  | cons q rest ih =>
    rw [find?_cons, List.forall_mem_cons]
    by_cases hk : q.1 = key
    · simp [hk]
    · simp [hk, ih]

theorem Sorted.find?_of_mem {m : KeyMap α} (h : Sorted m) {p : String × α} (hp : p ∈ m) :
    find? m p.1 = some p.2 := by
  induction m with
  | nil => cases hp
  | cons q rest ih =>
    rw [find?_cons]
    rcases List.mem_cons.1 hp with rfl | hp
    · exact if_pos rfl
    · rw [if_neg (String.ne_of_lt (h.head_lt p hp)), ih h.tail hp]

theorem Sorted.find?_eq_some {m : KeyMap α} (h : Sorted m) {key : String} {value : α} :
    find? m key = some value ↔ (key, value) ∈ m :=
  ⟨mem_of_find?, fun hp => h.find?_of_mem hp⟩

/-- Sorted maps with the same look-ups are the same. -/
theorem Sorted.ext {m n : KeyMap α} (hm : Sorted m) (hn : Sorted n)
    (h : ∀ key, find? m key = find? n key) : m = n := by
  have hmem : ∀ p : String × α, p ∈ m ↔ p ∈ n := by
    intro p
    rw [← hm.find?_eq_some, ← hn.find?_eq_some, h]
  induction m generalizing n with
  | nil =>
    cases n with
    | nil => rfl
    | cons q rest => exact absurd ((hmem q).2 List.mem_cons_self) List.not_mem_nil
  | cons p rest ih =>
    cases n with
    | nil => exact absurd ((hmem p).1 List.mem_cons_self) List.not_mem_nil
    | cons q rest' =>
      -- The head of either list is its least entry.
      have hpq : p = q := by
        rcases List.mem_cons.1 ((hmem p).1 List.mem_cons_self) with hp | hp
        · exact hp
        · rcases List.mem_cons.1 ((hmem q).2 List.mem_cons_self) with hq | hq
          · exact hq.symm
          · exact absurd (hm.head_lt q hq) (String.lt_asymm (hn.head_lt p hp))
      subst hpq
      have hrest : ∀ r, r ∈ rest ↔ r ∈ rest' := by
        intro r
        constructor
        · intro hr
          rcases List.mem_cons.1 ((hmem r).1 (List.mem_cons_of_mem _ hr)) with rfl | hr'
          · exact absurd (hm.head_lt r hr) (String.lt_irrefl _)
          · exact hr'
        · intro hr
          rcases List.mem_cons.1 ((hmem r).2 (List.mem_cons_of_mem _ hr)) with rfl | hr'
          · exact absurd (hn.head_lt r hr) (String.lt_irrefl _)
          · exact hr'
      have hfind : ∀ key, find? rest key = find? rest' key := by
        intro key
        rw [Option.ext_iff]
        intro value
        rw [hm.tail.find?_eq_some, hn.tail.find?_eq_some]
        exact hrest _
      rw [ih hm.tail hn.tail hfind hrest]

/-- Removing a key that is not there changes nothing. -/
theorem erase_of_find?_none {m : KeyMap α} {key : String} (h : find? m key = none) :
    erase m key = m := by
  refine List.filter_eq_self.2 fun p hp => ?_
  exact decide_eq_true (find?_eq_none.1 h p hp)

/-! ## Insertion in order -/

/-- A key past all others goes to the end. -/
theorem insert_of_lt {m : KeyMap α} {key : String} (h : ∀ p ∈ m, p.1 < key) (value : α) :
    insert m key value = m ++ [(key, value)] := by
  induction m with
  | nil => rfl
  | cons q rest ih =>
    obtain ⟨k, v⟩ := q
    have hlt : k < key := h (k, v) List.mem_cons_self
    unfold insert
    rw [if_neg (String.lt_asymm hlt), if_neg (String.ne_of_lt hlt).symm,
      ih fun p hp => h p (List.mem_cons_of_mem _ hp)]
    rfl

/-- Inserting the entries of a sorted map one after the other, behind entries with smaller
keys, appends them. -/
theorem foldl_insert_of_sorted {before entries : KeyMap α} (h : Sorted (before ++ entries)) :
    entries.foldl (fun m p => insert m p.1 p.2) before = before ++ entries := by
  induction entries generalizing before with
  | nil => rw [List.foldl_nil, List.append_nil]
  | cons p rest ih =>
    have hlt : ∀ q ∈ before, q.1 < p.1 := fun q hq =>
      (List.pairwise_append.1 h).2.2 q hq p List.mem_cons_self
    have happ : before ++ p :: rest = (before ++ [p]) ++ rest := by simp
    rw [List.foldl_cons, insert_of_lt hlt, happ]
    exact ih (happ ▸ h)

theorem Sorted.foldl_insert {entries : KeyMap α} (h : Sorted entries) :
    entries.foldl (fun m p => KeyMap.insert m p.1 p.2) [] = entries :=
  @foldl_insert_of_sorted α [] entries h

end KeyMap

namespace Message

/-! ## Properties of messages -/

@[simp] theorem get?_set (m : Message) (name : String) (value : Value) (other : String) :
    (m.set name value).get? other = if name = other then some value else m.get? other :=
  KeyMap.find?_insert m.fields name value other

@[simp] theorem get?_unset (m : Message) (name other : String) :
    (m.unset name).get? other = if name = other then none else m.get? other :=
  KeyMap.find?_erase m.fields name other

@[simp] theorem typeName_set (m : Message) (name : String) (value : Value) :
    (m.set name value).typeName = m.typeName := rfl

@[simp] theorem typeName_unset (m : Message) (name : String) :
    (m.unset name).typeName = m.typeName := rfl

/-- The properties of a message are in order. -/
def Sorted (m : Message) : Prop := KeyMap.Sorted m.fields

theorem sorted_empty (typeName : String) : (empty typeName).Sorted := KeyMap.sorted_nil

theorem Sorted.set {m : Message} (h : m.Sorted) (name : String) (value : Value) :
    (m.set name value).Sorted :=
  KeyMap.Sorted.insert h name value

theorem Sorted.unset {m : Message} (h : m.Sorted) (name : String) : (m.unset name).Sorted :=
  KeyMap.Sorted.erase h name

theorem Sorted.update {m : Message} (h : m.Sorted) (name : String) (value : Option Value) :
    (m.update name value).Sorted := by
  cases value with
  | none => exact h
  | some value => exact h.set name value

/-- Messages of one type with the same properties are the same. -/
theorem ext_get? {m n : Message} (hm : m.Sorted) (hn : n.Sorted)
    (htype : m.typeName = n.typeName) (h : ∀ name, m.get? name = n.get? name) : m = n := by
  obtain ⟨typeName, fields⟩ := m
  obtain ⟨typeName', fields'⟩ := n
  have hfields : fields = fields' := KeyMap.Sorted.ext hm hn h
  subst hfields
  subst htype
  rfl

theorem unset_of_get?_none {m : Message} {name : String} (h : m.get? name = none) :
    m.unset name = m := by
  obtain ⟨typeName, fields⟩ := m
  simp only [unset, Message.mk.injEq, true_and]
  exact KeyMap.erase_of_find?_none h

/-- Setting a property to what it holds changes nothing. -/
theorem Sorted.set_self {m : Message} (h : m.Sorted) {name : String} {value : Value}
    (hv : m.get? name = some value) : m.set name value = m := by
  refine ext_get? (h.set name value) h rfl fun other => ?_
  rw [get?_set]
  split
  next heq => rw [← heq, hv]
  · rfl

/-- Of two values for a property the later counts. -/
theorem Sorted.set_set {m : Message} (h : m.Sorted) (name : String) (value value' : Value) :
    (m.set name value).set name value' = m.set name value' := by
  refine ext_get? ((h.set name value).set name value') (h.set name value') rfl fun other => ?_
  simp only [get?_set]
  split <;> rfl

end Message
end ProtoStub
