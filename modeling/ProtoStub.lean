import ProtoStub.Binary.Layout
import ProtoStub.Binary.Reading
import ProtoStub.Codec.Decode
import ProtoStub.Codec.Encode
import ProtoStub.Codec.OfJson
import ProtoStub.Codec.ToJson
import ProtoStub.CommandLine
import ProtoStub.Envelope.Request
import ProtoStub.Envelope.Response
import ProtoStub.Generate
import ProtoStub.ImportTable
import ProtoStub.Json.Parser
import ProtoStub.Json.Printer
import ProtoStub.Main
import ProtoStub.ModulePath
import ProtoStub.Options
import ProtoStub.Proofs.BuiltFields
import ProtoStub.Proofs.Concatenation
import ProtoStub.Proofs.KeyMaps
import ProtoStub.Proofs.Numerals
import ProtoStub.Proofs.Scalars
import ProtoStub.Proofs.Utf8
import ProtoStub.Proofs.WireValues
import ProtoStub.Scope.Resolve
import ProtoStub.Script.Module
import ProtoStub.Tree.Build
import ProtoStub.Wire.Record
import ProtoStub.Wire.ZigZag
import ProtoStub.Proofs.Conformance
import ProtoStub.Proofs.Revision
import ProtoStub.Proofs.Defaults
import ProtoStub.Proofs.Records
import ProtoStub.Proofs.BinaryRoundTrip
import ProtoStub.Proofs.Canonical
import ProtoStub.Proofs.Reencoding
import ProtoStub.Proofs.Base64
import ProtoStub.Proofs.JsonRoundTrip
import ProtoStub.Proofs.Decision
import ProtoStub.Proofs.Visibility
import ProtoStub.Proofs.Resolution
import ProtoStub.Proofs.Isolation
import ProtoStub.Proofs.Offsets
import ProtoStub.Proofs.UnknownRecords
import ProtoStub.Proofs.Restriction
import ProtoStub.Proofs.WrittenRecords
import ProtoStub.Proofs.SchemaEvolution
import ProtoStub.Proofs.Acceptance
import ProtoStub.Proofs.ModulePaths
import ProtoStub.Proofs.ImportNames
import ProtoStub.Proofs.LocalNames
import ProtoStub.Proofs.Merging
import ProtoStub.Proofs.JsonReading
import ProtoStub.Proofs.Writability
import ProtoStub.Proofs.DataFaults
import ProtoStub.Proofs.DeclaredTypes
import ProtoStub.Proofs.WritingFaults
import ProtoStub.Proofs.WholeSchemas
import ProtoStub.Proofs.NestedMessages
import ProtoStub.Proofs.RecordNumbers
import ProtoStub.Proofs.LastMember
import ProtoStub.Proofs.JsonMembers
import ProtoStub.Proofs.Tags
import ProtoStub.Proofs.JsonIntegers
import ProtoStub.Proofs.ModuleNames
import ProtoStub.Proofs.TypeScopes
import ProtoStub.Proofs.ReadingInto
import ProtoStub.Proofs.FaultOffsets
import ProtoStub.Proofs.RecordOrder
import ProtoStub.Proofs.PackedRuns
import ProtoStub.Proofs.MapEntries
import ProtoStub.Proofs.GroupMarkers
import ProtoStub.Proofs.ShownFields
import ProtoStub.Proofs.EmptyMessages
import ProtoStub.Proofs.IgnoredMembers
import ProtoStub.Proofs.ImportRuns
import ProtoStub.Proofs.JsonKeys
import ProtoStub.Proofs.NestedModules
import ProtoStub.Proofs.CommentBlocks
import ProtoStub.Proofs.Parameters
import ProtoStub.Proofs.RuntimeNames
import ProtoStub.Proofs.StubParameters
import ProtoStub.Proofs.Positions
import ProtoStub.Proofs.PresenceClasses
import ProtoStub.Proofs.PropertyNames
import ProtoStub.Proofs.ScalarLayouts
import ProtoStub.Proofs.Varints
