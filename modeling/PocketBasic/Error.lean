/-! The causes for which an operation of the library refuses its input, and their wording. -/

namespace PocketBasic

inductive Error where
  | invalidLineNumber
  /-- The settings text is not JSON, for the reason that its reader gives, if it gives one. -/
  | malformedSettings {reason : Option String}
  | unknownSelector (text : String)
deriving DecidableEq, Repr

def Error.message : Error → String
  | invalidLineNumber => "Invalid Line Number"
  | @malformedSettings reason =>
    "Settings could not be parsed" ++ reason.elim "" (": " ++ ·)
  | unknownSelector text => "Unknown selector `" ++ text ++ "`"

end PocketBasic
