import ProtoStub.Text.Cut

/-
  The command line. Options with a value take it after an equals sign or as the next
  argument, which may then not look like an option; each may be given once.
-/

namespace ProtoStub

/-- What the arguments say. -/
structure CommandLine where
  /-- How often more diagnostics were asked for. -/
  verbosity : Nat := 0
  /-- A parameter beside that of the request. -/
  parameter : Option String := none
  /-- The file that holds the request. -/
  input : Option String := none
  /-- The file that gets the response. -/
  output : Option String := none
  deriving DecidableEq, Repr

namespace CommandLine

/-- The exit code of a run whose arguments make no sense. -/
def badArguments : UInt32 := 2

/-- The exit code of a run that cannot read its request or write its response. -/
def failure : UInt32 := 1

/-- An option with a value. -/
inductive Setting where
  | parameter
  | input
  | output
  deriving DecidableEq, Repr

/-- The option with a name. -/
def Setting.ofName? : String → Option Setting
  | "parameter" => some parameter
  | "input" => some input
  | "output" => some output
  | _ => none

/-- Gives an option its value, unless it has one. A path may not be empty. -/
def set? (line : CommandLine) (setting : Setting) (value : String) : Option CommandLine :=
  match setting with
  | .parameter =>
    if line.parameter.isSome then none else some { line with parameter := some value }
  | .input =>
    if line.input.isSome || value = "" then none else some { line with input := some value }
  | .output =>
    if line.output.isSome || value = "" then none else some { line with output := some value }

/-- Whether an argument is an option, and so no value. -/
def isOption (argument : String) : Bool :=
  match argument.toList with
  | '-' :: _ :: _ => true
  | _ => false

/-- An argument by its form. -/
inductive Argument where
  /-- A request for more diagnostics, `count` times. -/
  | verbose (count : Nat)
  /-- An option and its value, if that is part of the argument. -/
  | setting (setting : Setting) (value : Option String)
  /-- The end of the options. -/
  | finish
  deriving DecidableEq, Repr

/-- The argument that a long option is, given what follows its two dashes. -/
def Argument.ofLong? (s : String) : Option Argument :=
  match Text.cut? '=' s with
  | some (name, value) => (Setting.ofName? name).map (.setting · (some value))
  | none =>
    if s = "verbose" then some (.verbose 1) else (Setting.ofName? s).map (.setting · none)

/-- The form of an argument, if it is one that is known. -/
def Argument.ofText? (s : String) : Option Argument :=
  match s.toList with
  | ['-', '-'] => some .finish
  | '-' :: '-' :: rest => Argument.ofLong? (String.ofList rest)
  | '-' :: c :: rest =>
    if (c :: rest).all (· = 'v') then some (.verbose (rest.length + 1)) else none
  | _ => none

/-- What the remaining arguments add to what those before them say. -/
def readFrom? (line : CommandLine) : List String → Option CommandLine
  | [] => some line
  | argument :: rest =>
    match Argument.ofText? argument with
    | none => none
    | some .finish => if rest.isEmpty then some line else none
    | some (.verbose count) => readFrom? { line with verbosity := line.verbosity + count } rest
    | some (.setting setting (some value)) =>
      match line.set? setting value with
      | none => none
      | some line => readFrom? line rest
    | some (.setting setting none) =>
      match rest with
      | [] => none
      | value :: rest =>
        if isOption value then none
        else
          match line.set? setting value with
          | none => none
          | some line => readFrom? line rest

/-- What arguments and the environment say; the parameter of the environment stands in for
one that is not among the arguments. -/
def ofArguments? (arguments : List String) (environment : Option String) : Option CommandLine :=
  (readFrom? {} arguments).map fun line =>
    { line with parameter := line.parameter.or environment }

end CommandLine
end ProtoStub
