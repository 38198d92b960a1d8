import ProtoStub.Options

/-
  Where modules live. A schema file `a/b.proto` gives the module `a/b.pb.ts` or
  `a/b.pb.js`; one module imports another by a path relative to its own directory,
  which in TypeScript leaves the extension out.
-/

namespace ProtoStub.ModulePath

/-- The module generated from a schema file. -/
def generated (file : String) (language : Language) : String :=
  (Text.beforeEnd? ".proto" file).getD file ++ ".pb." ++ language.fileExtension

/-- Leaves out the directories in which two paths agree from the start. -/
def dropCommon : List String → List String → List String × List String
  | a :: as, b :: bs => if a = b then dropCommon as bs else (a :: as, b :: bs)
  | as, bs => (as, bs)

/-- The name by which an importing module spells the file name of another. -/
def importName (file : String) : Language → String
  | .typeScript => (Text.beforeEnd? ".ts" file).getD file
  | .javaScript => file

/-- The segments that lead from the directory `source` to the file `file` in the directory
`target`: up to the common directory and down again. -/
def stepsTo (source target : List String) (file : String) : List String :=
  let (up, down) := dropCommon source target
  List.replicate up.length ".." ++ down ++ [file]

/-- The path by which the module `source` imports the module `target`. -/
def relative (source target : String) (language : Language) : String :=
  let sourceParts := Text.pieces '/' source
  let targetParts := Text.pieces '/' target
  let file := importName (targetParts.getLastD "") language
  let joined := "/".intercalate (stepsTo sourceParts.dropLast targetParts.dropLast file)
  match Text.afterStart? "../" joined with
  | some _ => joined
  | none => "./" ++ joined

end ProtoStub.ModulePath
