import PocketBasic.Json.Parse
import PocketBasic.Keyword.Table
import PocketBasic.LineEnding

/-! Settings. They are given as JSON, of which three paths count; everything else in it is ignored,
and so is a value of the wrong type. How JSON is read is left open: a reader is given, and so is
whether the host runs Windows, since the host has a line ending of its own. -/

namespace PocketBasic

structure Settings where
  ce150 : Bool := true
  ce158 : Bool := true
  /-- The line ending of programs without a terminator. -/
  ending : LineEnding := .platform false
deriving DecidableEq, Repr

namespace Settings

def defaults (windows : Bool) : Settings where
  ending := .platform windows

inductive Warning where
  | ignoredLineEnding (name : String)
deriving DecidableEq, Repr

def Warning.message : Warning → String
  | ignoredLineEnding name => "ignoring line ending `" ++ name ++ "`"

section
variable (windows : Bool)

/-- The line ending of a name. The empty name stands for the current one, and a name that is not known
does too, with a warning. -/
def chooseEnding (current : LineEnding) (name : List Char) : LineEnding × List Warning :=
  if name = [] then (current, [])
  else match LineEnding.ofName windows (String.ofList name) with
    | .ok ending => (ending, [])
    | .error _ => (current, [.ignoredLineEnding (String.ofList name)])

/-- Takes over what a member of the root says, after what the members before it have said. -/
def update : Settings × List Warning → List Char × Json → Settings × List Warning
  | (settings, warnings), (key, value) =>
    if key = "keywords".toList then
      ({ settings with
          ce150 := value.updatedBool "ce150".toList settings.ce150
          ce158 := value.updatedBool "ce158".toList settings.ce158 }, warnings)
    else if key = "reformat".toList then
      let name := value.updatedString "defaultLineEnding".toList []
      let (ending, ignored) := chooseEnding windows settings.ending name
      ({ settings with ending }, warnings ++ ignored)
    else (settings, warnings)

/-- The settings that a JSON value gives. Its members are gone through one by one, and whatever they
do not say stays at its default. -/
def ofJson (root : Json) : Settings × List Warning :=
  root.entries.foldl (update windows) (defaults windows, [])

def parseWith (read : Json.Reader) (text : List Char) : Except Error (Settings × List Warning) :=
  match read text with
  | .ok root => .ok (ofJson windows root)
  | .error reason => .error (@Error.malformedSettings reason)

end

/-- Reads settings on a host that does not run Windows, with the reader of this library. -/
def parse (text : List Char) : Except Error (Settings × List Warning) :=
  parseWith false Json.read text

/-- The tiers whose keywords are known. Those of the machine itself always are. -/
def tiers (settings : Settings) : List Tier :=
  .core :: (if settings.ce150 then [.ce150] else []) ++ (if settings.ce158 then [.ce158] else [])

def table (settings : Settings) : Keyword.Table :=
  .ofTiers settings.tiers

end Settings

end PocketBasic
