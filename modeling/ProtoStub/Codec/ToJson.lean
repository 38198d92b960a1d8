import ProtoStub.Codec.Basic
import ProtoStub.Json.Printer
import ProtoStub.Text.Base64
import ProtoStub.Value.View

/-
  Messages as JSON. Integers of 64 bits are strings, bytes are base64, and what is no
  finite number goes by its name. Defaults are left out unless the codec is to show them.
-/

namespace ProtoStub.Codec

/-- A number as JSON. -/
def numberJson (x : Binary64) : Json :=
  if x.isFinite then .number (.fractional x)
  else if x.isNaN then .string "NaN"
  else if x.isNegative then .string "-Infinity"
  else .string "Infinity"

/-- A single value that is no message as JSON. The kind of the field plays no part. -/
def scalarJson (value : Value) : Writer Json := fun kind path =>
  match value with
  | .double x => .ok (numberJson x)
  | .float x => .ok (numberJson x.widen)
  | .int32 n => .ok (.number (.ofInt n.toInt))
  | .uint32 n => .ok (.number (.natural (UInt64.ofNat n.toNat)))
  | .int64 n => .ok (.string (toString n.toInt))
  | .uint64 n => .ok (.string (toString n.toNat))
  | .bool b => .ok (.bool b)
  | .string s => .ok (.string s)
  | .bytes bs => .ok (.string (Text.base64Encode bs))
  | .enum (.named name) => .ok (.string name)
  | .enum (.unknown number) => .ok (.number (.ofInt number.toInt))
  | .message m => .error (.invalidValue path (misfit kind (.message m)))
  | .list items => .error (.invalidValue path (misfit kind (.list items)))
  | .map entries => .error (.invalidValue path (misfit kind (.map entries)))

/-- The items of a list. -/
def itemsJson (kind : FieldKind) (path : String) : List (Writer Json) → Except Error (List Json)
  | [] => .ok []
  | write :: rest =>
    match write kind path with
    | .error e => .error e
    | .ok first => (first :: ·) <$> itemsJson kind path rest

/-- The entries of a map, added to the members of an object. -/
def entriesJson (kind : FieldKind) (path : String) (members : KeyMap Json) :
    List (String × Writer Json) → Except Error (KeyMap Json)
  | [] => .ok members
  | (key, write) :: rest =>
    match write kind path with
    | .error e => .error e
    | .ok value => entriesJson kind path (KeyMap.insert members key value) rest

/-- What a field holds as JSON. -/
def contentJson (field : Field) (path : String) (view : View Json) : Except Error Json :=
  match field, view.value with
  | .map _ _ value, .map _ => .object <$> entriesJson value.info.kind path [] view.entries
  | .map _ _ _, other => .error (.invalidValue path (other.text ++ " does not fit the field"))
  | .plain info, other =>
    if info.repeated then
      match other with
      | .list _ => .array <$> itemsJson info.kind path view.items
      | other => .error (.invalidValue path (other.text ++ " does not fit the field"))
    else view.write info.kind path

/-- Whether a field is shown. -/
def isShown (codec : Codec) (field : Field) (path : String) (value : Value) :
    Except Error Bool :=
  match value with
  | .map entries => .ok (codec.emitDefaults || !entries.isEmpty)
  | .list items => .ok (codec.emitDefaults || !items.isEmpty)
  | value =>
    if field.implicitPresence && !codec.emitDefaults then
      (!·) <$> codec.isZero field.info.kind path value
    else .ok true

/-- The given fields of a message, added to the members of an object. -/
def membersOf (codec : Codec) (decl : MessageDecl) (views : List (String × View Json)) :
    List Field → KeyMap Json → Except Error (KeyMap Json)
  | [], members => .ok members
  | field :: rest, members =>
    match KeyMap.find? views field.info.name with
    | none => codec.membersOf decl views rest members
    | some view =>
      match codec.isShown field (fieldPath decl field.info) view.value with
      | .error e => .error e
      | .ok false => codec.membersOf decl views rest members
      | .ok true =>
        match contentJson field (fieldPath decl field.info) view with
        | .error e => .error e
        | .ok json =>
          codec.membersOf decl views rest
            (KeyMap.insert members (field.info.outputName codec.protoNames) json)

/-- A single value as JSON, given the views of its fields if it is a message. -/
def valueJson (codec : Codec) (value : Value) (views : List (String × View Json)) :
    Writer Json := fun kind path =>
  match kind, value with
  | .message target, .message _ =>
    match codec.message target.fqName with
    | .error e => .error e
    | .ok decl => .object <$> codec.membersOf decl views decl.fields []
  | kind, value => scalarJson value kind path

/-- A message as JSON, as one of the given type. -/
def toJsonAs (codec : Codec) (decl : MessageDecl) (m : Message) : Except Error Json :=
  .object <$> codec.membersOf decl (Value.fieldViews codec.valueJson m.fields) decl.fields []

/-- A message as JSON. -/
def toJson (codec : Codec) (m : Message) : Except Error Json :=
  match codec.message m.typeName with
  | .error e => .error e
  | .ok decl => codec.toJsonAs decl m

/-- The JSON text of a message. -/
def encodeJson (codec : Codec) (m : Message) : Except Error String :=
  Json.print <$> codec.toJson m

end ProtoStub.Codec
