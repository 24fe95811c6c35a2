import PocketBasic.Cli.Guidance

/-! A reader of command lines. Arguments are read from left to right, and the first one that does
not fit ends the reading, unless a request for help or for the version comes before it. -/

namespace PocketBasic.Cli

/-- Reads a number of spaces: a sign may stand in front, and there may be 15 at most. -/
def readWidth? (text : List Char) : Option Nat :=
  let signed := text.head? == some '+' || text.head? == some '-'
  let digits := if signed then text.tail else text
  let width := Text.decimalValue digits
  if digits ≠ [] ∧ digits.all Char.isDigit ∧ width ≤ 15 ∧
      (text.head? = some '-' → width = 0) then
    some width
  else none

namespace Switch

def name : Switch → String
  | config => "config"
  | indent => "indent"
  | console => "console"
  | category => "category"
  | kind => "kind"
  | shell => "shell"

def letter? : Switch → Option Char
  | config => some 'c'
  | shell => some 's'
  | _ => none

def choices? : Switch → Option (List String)
  | category => some ["core", "ce150", "ce158"]
  | kind => some ["statement", "function", "operator", "other"]
  | shell => some ["bash", "elv", "fish", "ps1", "zsh"]
  | _ => none

def takesValue : Switch → Bool
  | console => false
  | _ => true

def read? (switch : Switch) (text : List Char) : Option Value :=
  match switch with
  | indent => (readWidth? text).map .number
  | _ =>
    if switch.choices?.all (·.contains (String.ofList text)) then some (.text text) else none

def default? : Switch → Option Value
  | config => some (.text [])
  | console => some (.flag false)
  | _ => none

end Switch

inductive Argument where
  /-- Two hyphens alone, after which no option can follow. -/
  | stop
  /-- A name after two hyphens, with what follows an equals sign. -/
  | long (name : List Char) (value : Option (List Char))
  /-- A letter after one hyphen, with what follows it at once. -/
  | short (letter : Char) (rest : List Char)
  | plain (text : List Char)
  | garbled
deriving DecidableEq, Repr

namespace Argument

/-- The form of an argument. A hyphen alone is plain text. -/
def ofText : List Char → Argument
  | ['-', '-'] => stop
  | '-' :: '-' :: text =>
    let name := text.takeWhile (· != '=')
    match text.dropWhile (· != '=') with
    | [] => long name none
    | _ :: value => long name (some value)
  | '-' :: letter :: rest => short letter rest
  | text => plain text

def ofBytes (content : ByteArray) : Argument :=
  match String.fromUTF8? content with
  | some text => ofText text.toList
  | none => garbled

end Argument

inductive Options where
  | help (detailed : Bool)
  | given (values : List (Switch × Value))

namespace Options

/-- The value that follows a letter at once, without the equals sign that may stand between. -/
def attached? : List Char → Option (List Char)
  | [] => none
  | '=' :: value => some value
  | value => some value

/-- Adds a value to those that were given. No argument may be given twice. -/
def add? (values : List (Switch × Value)) (switch : Switch) (value : Value) :
    Option (List (Switch × Value)) :=
  if values.any (·.1 == switch) then none else some (values ++ [(switch, value)])

/-- What an argument asks for before any value that it may wait for. -/
inductive Meaning where
  | stop
  | help (detailed : Bool)
  | complete (switch : Switch) (value : Value)
  | awaiting (switch : Switch)

def meaningOf? (value : Option (List Char)) (switch : Switch) : Option Meaning :=
  match switch.takesValue, value with
  | true, some value => (switch.read? value).map (.complete switch)
  | true, none => some (.awaiting switch)
  | false, some _ => none
  | false, none => some (.complete switch (.flag true))

def meaning? (command : Command) : Argument → Option Meaning
  | .stop => some .stop
  | .long name value =>
    if name = "help".toList then if value.isNone then some (.help true) else none
    else (command.switches.find? (·.name.toList == name)).bind (meaningOf? value)
  | .short letter rest =>
    if letter = 'h' then some (.help false)
    else (command.switches.find? (·.letter? == some letter)).bind (meaningOf? (attached? rest))
  | .plain _ | .garbled => none

def read? (command : Command) (values : List (Switch × Value)) : List Argument → Option Options
  | [] => some (.given values)
  | argument :: rest =>
    match meaning? command argument with
    | none => none
    | some .stop => if rest = [] then some (.given values) else none
    | some (.help detailed) => some (.help detailed)
    | some (.complete switch value) => (add? values switch value).bind (read? command · rest)
    | some (.awaiting switch) =>
      match rest with
      | .plain text :: rest =>
        ((switch.read? text).bind (add? values switch)).bind (read? command · rest)
      | _ => none

end Options

namespace Reading

def misused : Reading :=
  ended 2 []

def version : Reading :=
  ended 0 Guidance.version.toList

def help (detailed : Bool) (topic : Option Command) : Reading :=
  ended 0 (Guidance.help detailed topic).toList

def match? (values : List (Switch × Value)) (switch : Switch) : Option Match :=
  match values.lookup switch with
  | some value => some ⟨switch.name, .commandLine, value⟩
  | none => switch.default?.map (⟨switch.name, .default, ·⟩)

/-- A command with the values that it was given. Completions need a shell to be for. -/
def ofValues (command : Command) (values : List (Switch × Value)) : Reading :=
  if command = .completions ∧ values = [] then misused
  else matched (some (command.name, command.switches.filterMap (match? values)))

def ofCommand (command : Command) (arguments : List Argument) : Reading :=
  match Options.read? command [] arguments with
  | none => misused
  | some (.help detailed) => help detailed (some command)
  | some (.given values) => ofValues command values

/-- A request for help on a command, by its name. The name of this request counts as one. -/
def helpOn : List Argument → Reading
  | [] => help true none
  | [.plain name] =>
    if name = "help".toList then help true none
    else
      match Command.ofName? (String.ofList name) with
      | some command => help true (some command)
      | none => misused
  | _ => misused

def ofArguments : List Argument → Reading
  | [] => matched none
  | .stop :: rest => if rest = [] then matched none else misused
  | .long name value :: _ =>
    if value.isSome then misused
    else if name = "version".toList then version
    else if name = "help".toList then help true none
    else misused
  | .short letter _ :: _ =>
    if letter = 'V' then version else if letter = 'h' then help false none else misused
  | .plain text :: rest =>
    if text = "help".toList then helpOn rest
    else
      match Command.ofName? (String.ofList text) with
      | some command => ofCommand command rest
      | none => misused
  | .garbled :: _ => misused

end Reading

def Reader.standard : Reader := fun arguments =>
  .ofArguments (arguments.map Argument.ofBytes)

end PocketBasic.Cli
