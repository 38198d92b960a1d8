/-
  Property names. A field `user_name` becomes the property `userName`: each run of
  underscores disappears and capitalises the letter after it. Only ASCII letters
  change case.
-/

namespace ProtoStub.Text

/-- Drops underscores and capitalises the character after each run of them; `raise` says
whether an underscore has just been dropped. -/
def camelFrom : (raise : Bool) → List Char → List Char
  | _, [] => []
  | raise, c :: cs =>
    if c = '_' then camelFrom true cs
    else (if raise then c.toUpper else c) :: camelFrom false cs

/-- The camel-case form of a name. -/
def camelCase (name : String) : String :=
  String.ofList (camelFrom false name.toList)

end ProtoStub.Text
