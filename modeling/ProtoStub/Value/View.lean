import ProtoStub.Error
import ProtoStub.Field.Kind
import ProtoStub.Value.Basic

/-
  Writing values by recursion on the value alone. How a value is written hangs on the
  field that holds it, and so does not show in the value; the recursion therefore gives
  for every value a function of the field's kind, and for lists, maps and messages those
  of their parts.
-/

namespace ProtoStub

/-- A way to write a single value as an `α`, given the kind of its field and the path by
which diagnostics name the field. -/
abbrev Writer (α : Type) : Type := FieldKind → String → Except Error α

/-- A value with the ways to write it and its parts. -/
structure View (α : Type) where
  value : Value
  write : Writer α
  /-- The items, if the value is a list. -/
  items : List (Writer α)
  /-- The entries, if the value is a map. -/
  entries : List (String × Writer α)

variable {α : Type}

mutual

/-- The view of a value, where `node` writes a single value, given the views of its fields if
it is a message. -/
def Value.view (node : Value → List (String × View α) → Writer α) : Value → View α
  | .message ⟨typeName, fields⟩ =>
    ⟨.message ⟨typeName, fields⟩,
      node (.message ⟨typeName, fields⟩) (Value.fieldViews node fields), [], []⟩
  | .list items => ⟨.list items, node (.list items) [], Value.writers node items, []⟩
  | .map entries => ⟨.map entries, node (.map entries) [], [], Value.entryWriters node entries⟩
  | .double x => ⟨.double x, node (.double x) [], [], []⟩
  | .float x => ⟨.float x, node (.float x) [], [], []⟩
  | .int32 n => ⟨.int32 n, node (.int32 n) [], [], []⟩
  | .int64 n => ⟨.int64 n, node (.int64 n) [], [], []⟩
  | .uint32 n => ⟨.uint32 n, node (.uint32 n) [], [], []⟩
  | .uint64 n => ⟨.uint64 n, node (.uint64 n) [], [], []⟩
  | .bool b => ⟨.bool b, node (.bool b) [], [], []⟩
  | .string s => ⟨.string s, node (.string s) [], [], []⟩
  | .bytes bs => ⟨.bytes bs, node (.bytes bs) [], [], []⟩
  | .enum e => ⟨.enum e, node (.enum e) [], [], []⟩

/-- The ways to write the items of a list. -/
def Value.writers (node : Value → List (String × View α) → Writer α) :
    List Value → List (Writer α)
  | [] => []
  | v :: rest => (v.view node).write :: Value.writers node rest

/-- The ways to write the entries of a map. -/
def Value.entryWriters (node : Value → List (String × View α) → Writer α) :
    List (String × Value) → List (String × Writer α)
  | [] => []
  | (k, v) :: rest => (k, (v.view node).write) :: Value.entryWriters node rest

/-- The views of the fields of a message. -/
def Value.fieldViews (node : Value → List (String × View α) → Writer α) :
    List (String × Value) → List (String × View α)
  | [] => []
  | (k, v) :: rest => (k, v.view node) :: Value.fieldViews node rest

end

/-- The views of the fields are those of their values. -/
theorem Value.fieldViews_eq_map (node : Value → List (String × View α) → Writer α)
    (fields : List (String × Value)) :
    Value.fieldViews node fields = fields.map fun p => (p.1, p.2.view node) := by
  induction fields with
  | nil => rfl
  | cons p rest ih => simp [Value.fieldViews, ih]

theorem Value.writers_eq_map (node : Value → List (String × View α) → Writer α)
    (items : List Value) : Value.writers node items = items.map fun v => (v.view node).write := by
  induction items with
  | nil => rfl
  | cons v rest ih => simp [Value.writers, ih]

theorem Value.entryWriters_eq_map (node : Value → List (String × View α) → Writer α)
    (entries : List (String × Value)) :
    Value.entryWriters node entries = entries.map fun p => (p.1, (p.2.view node).write) := by
  induction entries with
  | nil => rfl
  | cons p rest ih => simp [Value.entryWriters, ih]

@[simp] theorem Value.view_value (node : Value → List (String × View α) → Writer α)
    (v : Value) : (v.view node).value = v := by
  cases v with
  | message m => cases m; rfl
  | _ => rfl

end ProtoStub
