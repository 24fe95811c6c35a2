/-! Command lines, as commands see them. A library reads the arguments, and hands over the command
with the values of its arguments. It may also end the run by itself: it shows help if that is asked
for, and it complains about arguments that do not fit. -/

namespace PocketBasic.Cli

inductive Source where
  | default
  | environment
  | commandLine
deriving DecidableEq, Repr

inductive Value where
  | text (text : List Char)
  | number (n : Nat)
  | flag (on : Bool)
deriving DecidableEq, Repr

/-- The value of an argument, under the name by which commands ask for it. -/
structure Match where
  name : String
  source : Source
  value : Value
deriving DecidableEq, Repr

abbrev Matches := List Match

namespace Matches

def named? (given : Matches) (name : String) : Option Match :=
  given.find? (·.name == name)

def source? (given : Matches) (name : String) : Option Source :=
  (given.named? name).map (·.source)

def value? (given : Matches) (name : String) : Option Value :=
  (given.named? name).map (·.value)

def text? (given : Matches) (name : String) : Option (List Char) :=
  match given.value? name with
  | some (.text text) => some text
  | _ => none

def number? (given : Matches) (name : String) : Option Nat :=
  match given.value? name with
  | some (.number n) => some n
  | _ => none

def flag (given : Matches) (name : String) : Bool :=
  given.value? name == some (.flag true)

/-- The settings text, if the command line gives one. A default does not count. -/
def config? (given : Matches) : Option (List Char) :=
  match given.source? "config" with
  | some .commandLine => given.text? "config"
  | _ => none

end Matches

inductive Reading where
  /-- The library ends the run, and has this for standard output. -/
  | ended (status : Nat) (output : List Char)
  | matched (command : Option (String × Matches))
deriving DecidableEq, Repr

/-- A reader of command lines. Arguments are bytes, since they need not be text. -/
abbrev Reader := List ByteArray → Reading

end PocketBasic.Cli
