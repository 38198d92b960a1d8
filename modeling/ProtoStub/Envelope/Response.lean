import ProtoStub.Generate
import ProtoStub.Text.Utf8
import ProtoStub.Wire.Scalar

/-
  Responses as bytes.
-/

namespace ProtoStub

open Wire

/-- The record of a text. -/
def Envelope.textRecord (number : UInt32) (s : String) : List UInt8 :=
  bodyRecord number (Text.utf8Encode s)

/-- The bytes of a generated file. -/
def GeneratedFile.bytes (file : GeneratedFile) : List UInt8 :=
  Envelope.textRecord 1 file.name ++ Envelope.textRecord 15 file.content

/-- The bytes of a response. -/
def Response.bytes (response : Response) : List UInt8 :=
  (response.failure.map (Envelope.textRecord 1)).getD [] ++
    (encodeTag 2 .varint ++ encodeVarint (UInt64.ofNat supportedFeatures)) ++
    response.files.flatMap fun file => bodyRecord 15 file.bytes

end ProtoStub
