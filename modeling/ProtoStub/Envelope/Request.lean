import ProtoStub.Envelope.Item
import ProtoStub.Generate

/-
  Requests from bytes.
-/

namespace ProtoStub.Envelope

/-- A field. -/
def fieldOf (items : Items) : FieldDescriptor :=
  { name := items.text 1
    number := items.int32 3
    label := Label.ofNumber (items.int32 4).toInt
    type := FieldType.ofNumber (items.int32 5).toInt
    typeName := items.text 6
    extendee := items.text 2
    oneofIndex := items.int32? 9
    jsonName := items.text? 10
    proto3Optional := items.flag 17 }

/-- An enum. -/
def enumOf (items : Items) : EnumDescriptor :=
  { name := items.text 1
    values := (items.records 2).map fun value => ⟨value.text 1, value.int32 2⟩ }

mutual

/-- A message. -/
def messageOf : Item → MessageDescriptor
  | .record items =>
    { name := Items.text items 1
      fields := (Items.records items 2).map fieldOf
      extensionFields := (Items.records items 6).map fieldOf
      nested := messagesOf 3 items
      enums := (Items.records items 4).map enumOf
      oneofs := (Items.records items 8).map (Items.text · 1)
      isMapEntry := (Items.record items 7).flag 7 }
  | _ => {}

/-- The messages under a number. -/
def messagesOf (number : Nat) : List (Nat × Item) → List MessageDescriptor
  | [] => []
  | (n, item) :: rest =>
    if n = number then messageOf item :: messagesOf number rest else messagesOf number rest

end

/-- A service. -/
def serviceOf (items : Items) : ServiceDescriptor :=
  { name := items.text 1
    methods := (items.records 2).map fun method =>
      { name := method.text 1
        inputType := method.text 2
        outputType := method.text 3
        clientStreaming := method.flag 5
        serverStreaming := method.flag 6 } }

/-- A comment. -/
def commentOf (items : Items) : CommentDescriptor :=
  { path := (items.integers 1).map Items.low32
    leading := items.text? 3 }

/-- A schema file. -/
def fileOf (items : Items) : FileDescriptor :=
  { name := items.text? 1
    package := items.text 2
    dialect := items.text 12
    dependencies := items.texts 3
    messages := messagesOf 4 items
    enums := (items.records 5).map enumOf
    services := (items.records 6).map serviceOf
    extensionFields := (items.records 7).map fieldOf
    comments := ((items.record 9).records 1).map commentOf }

/-- A request. -/
def requestOf (items : Items) : Request :=
  { targets := items.texts 1
    parameter := items.text? 2
    files := (items.records 15).map fileOf }

end ProtoStub.Envelope

namespace ProtoStub

/-- The request that bytes hold, if they are well formed. -/
def Request.ofBytes? (bytes : List UInt8) : Option Request :=
  (Envelope.readItems? .request Envelope.depthLimit (Wire.Cursor.start bytes)).map
    Envelope.requestOf

/-- A request with a further parameter, which comes after its own. -/
def Request.withParameter (request : Request) (extra : Option String) : Request :=
  { request with parameter := Options.mergeParameters request.parameter extra }

end ProtoStub
