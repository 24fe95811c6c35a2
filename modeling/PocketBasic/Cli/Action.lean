import PocketBasic.Settings

/-! What commands do, step by step. A step may write to standard output, leave a notice in the log,
or give up; what was written before stays written. -/

namespace PocketBasic.Cli

inductive Level where
  | error
  | warning
deriving DecidableEq, Repr

def Level.name : Level → String
  | error => "ERROR"
  | warning => "WARN"

/-- What the log says. The last ones are reasons to give up. -/
inductive Notice where
  | setting (warning : Settings.Warning)
  | noCommand
  | typedInput (command : String)
  | unreadable (command : String)
  | noInput (command : String)
  | unknownShell (name : String)
  | invalidCommand
  | unknownFormat
  | invalidEncoding
  | refused (cause : Error)
  /-- The system or a library failed, and said so in these words. -/
  | external (message : String)
deriving DecidableEq, Repr

namespace Notice

def level : Notice → Level
  | setting _ => .warning
  | _ => .error

def message : Notice → String
  | setting warning => warning.message
  | noCommand => "No subcommand was found, try `sharpkit --help`"
  | typedInput command =>
    "line entry is not supported for `" ++ command ++ "`, please pipe something in"
  | unreadable command => "the file to " ++ command ++ " could not be interpreted as a string"
  | noInput command => command ++ " did not receive any data from previous node"
  | unknownShell name => "unexpected shell `" ++ name ++ "`"
  | invalidCommand => "Command could not be interpreted"
  | unknownFormat => "Input source could not be interpreted"
  | invalidEncoding => "stream did not contain valid UTF-8"
  | refused cause => cause.message
  | external message => message

end Notice

structure Display where
  /-- Whether it is read by a person rather than by a program. -/
  terminal : Bool
  color : Bool
deriving DecidableEq, Repr

/-- How standard output takes a text after what it has taken before: `none` if it takes all of it, or
else the part that it takes and why it fails then. -/
abbrev Sink := (before text : List Char) → Option (List Char × String)

structure Host where
  windows : Bool
  display : Display
  sink : Sink

/-- What a run has left behind so far. -/
structure Record where
  output : List Char := []
  log : List Notice := []
deriving DecidableEq, Repr

inductive Fault where
  | failed (cause : Notice)
  | panicked
deriving DecidableEq, Repr

/-- Steps that leave a record behind, whether they come to their end or not. -/
abbrev Action := ExceptT Fault (StateM Record)

namespace Action

def perform {α : Type} (action : Action α) (record : Record) : Except Fault α × Record :=
  (action.run.run record).run

def log (notice : Notice) : Action Unit :=
  modify fun record => { record with log := record.log ++ [notice] }

def fail {α : Type} (cause : Notice) : Action α :=
  throw (.failed cause)

def ofExcept {ε α : Type} (cause : ε → Notice) : Except ε α → Action α
  | .ok a => pure a
  | .error e => fail (cause e)

/-- Hands a text to standard output, and tells why that failed if it did. -/
def offer (host : Host) (text : List Char) : StateM Record (Option String) := fun record =>
  match host.sink record.output text with
  | none => (none, { record with output := record.output ++ text })
  | some (part, reason) => (some reason, { record with output := record.output ++ part })

def write (host : Host) (text : List Char) : Action Unit := do
  if let some reason ← offer host text then
    fail (.external reason)

/-- Writes a text that nobody expects to fail. -/
def print (host : Host) (text : List Char) : Action Unit := do
  if let some _ ← offer host text then
    throw .panicked

end Action

end PocketBasic.Cli
