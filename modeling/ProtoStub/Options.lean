import ProtoStub.Text.Blank
import ProtoStub.Text.Cut

/-
  Options. A parameter is a list of settings `key=value` separated by commas. White
  space around settings, keys and values does not count, of two settings of one key
  the later wins, and a setting that is malformed, unknown or ill-valued is passed
  over.
-/

namespace ProtoStub

/-- The language of the generated modules. -/
inductive Language where
  | javaScript
  | typeScript
  deriving DecidableEq, Repr

namespace Language

/-- The file extension of a language. -/
def fileExtension : Language → String
  | javaScript => "js"
  | typeScript => "ts"

/-- Whether modules carry types. -/
def isTyped : Language → Bool
  | javaScript => false
  | typeScript => true

/-- The language of a name. -/
def ofName? : String → Option Language
  | "javascript" | "js" => some javaScript
  | "typescript" | "ts" => some typeScript
  | _ => none

/-- What a name is called that is no language. -/
def unknownMessage (name : String) : String :=
  "unknown language '" ++ name ++ "'"

end Language

/-- How modules are generated. -/
structure Options where
  language : Language := .javaScript
  /-- Whether JSON output has the fields that hold their default. -/
  emitDefaults : Bool := false
  /-- Whether JSON output uses the names of the schema. -/
  protoNames : Bool := false
  /-- One step of indentation. -/
  indent : String := "  "
  deriving DecidableEq, Repr

namespace Options

/-- A well-formed part of a parameter. -/
inductive Setting where
  | language (value : Language)
  | emitDefaults (value : Bool)
  | protoNames (value : Bool)
  deriving DecidableEq, Repr

/-- A truth value. -/
def flag? : String → Option Bool
  | "true" | "1" => some true
  | "false" | "0" => some false
  | _ => none

/-- The setting that gives a key a value. -/
def Setting.ofPair? (key value : String) : Option Setting :=
  match key with
  | "language" => (Language.ofName? value).map .language
  | "json.emitFieldsWithDefaultValues" => (flag? value).map .emitDefaults
  | "json.useProtoFieldName" => (flag? value).map .protoNames
  | _ => none

/-- The setting that a part of a parameter makes. -/
def Setting.ofPart? (part : String) : Option Setting :=
  (Text.cut? '=' (Text.trim part)).bind fun p =>
    Setting.ofPair? (Text.trim p.1) (Text.trim p.2)

/-- The settings of a parameter, in order. -/
def settings (parameter : String) : List Setting :=
  (Text.pieces ',' parameter).filterMap Setting.ofPart?

/-- The options after a setting. -/
def apply (options : Options) : Setting → Options
  | .language value => { options with language := value }
  | .emitDefaults value => { options with emitDefaults := value }
  | .protoNames value => { options with protoNames := value }

/-- The options of a parameter. -/
def ofParameter (parameter : Option String) : Options :=
  ((parameter.map settings).getD []).foldl apply {}

/-- The parameter that says what two parameters say, the second after the first. A blank
one says nothing. -/
def mergeParameters (first second : Option String) : Option String :=
  match ([first, second].filterMap id |>.map Text.trim |>.filter (· ≠ "")) with
  | [] => none
  | parts => some (",".intercalate parts)

end Options
end ProtoStub
