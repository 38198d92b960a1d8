import ProtoStub.CommandLine
import ProtoStub.Envelope.Request
import ProtoStub.Envelope.Response

/-
  The compiler plugin: a request on standard input, a response on standard output.
-/

namespace ProtoStub.Plugin

/-- The variable of the environment that holds a parameter. -/
def parameterVariable : String := "PROTOSTUB_PARAMETER"

/-- All that a stream has to give. -/
partial def readAll (stream : IO.FS.Stream) (sofar : ByteArray) : IO ByteArray := do
  let chunk ← stream.read 65536
  if chunk.isEmpty then return sofar else readAll stream (sofar ++ chunk)

/-- The bytes of the request. -/
def readRequest (line : CommandLine) : IO ByteArray := do
  match line.input with
  | some path => IO.FS.readBinFile path
  | none => readAll (← IO.getStdin) .empty

/-- Writes the bytes of the response. -/
def writeResponse (line : CommandLine) (bytes : ByteArray) : IO Unit := do
  match line.output with
  | some path => IO.FS.writeBinFile path bytes
  | none =>
    let stdout ← IO.getStdout
    stdout.write bytes
    stdout.flush

/-- Answers the request that a command line names. -/
def answerRequest (line : CommandLine) : IO UInt32 := do
  let bytes ← readRequest line
  match Request.ofBytes? bytes.toList with
  | none =>
    IO.eprintln "the request is not well formed"
    return CommandLine.failure
  | some request =>
    let response := (request.withParameter line.parameter).respond
    writeResponse line ⟨response.bytes.toArray⟩
    return 0

end ProtoStub.Plugin

/-- Runs the plugin. -/
def main (arguments : List String) : IO UInt32 := do
  match ProtoStub.CommandLine.ofArguments? arguments (← IO.getEnv ProtoStub.Plugin.parameterVariable) with
  | none =>
    IO.eprintln "usage: [-v] [--parameter TEXT] [--input FILE] [--output FILE]"
    return ProtoStub.CommandLine.badArguments
  | some line =>
    try ProtoStub.Plugin.answerRequest line
    catch e =>
      IO.eprintln (toString e)
      return ProtoStub.CommandLine.failure
