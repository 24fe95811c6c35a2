import PocketBasic.Cli.Action
import PocketBasic.Cli.Console
import PocketBasic.Cli.Matches
import PocketBasic.Listing.Canonical
import PocketBasic.Listing.Compact
import PocketBasic.Token.Json

/-! The commands, and a run of the program: from arguments and standard input to an exit status,
standard output and log. How arguments and JSON are read, how JSON is written and what helps a shell
to complete a command line is up to libraries, which are given. -/

namespace PocketBasic.Cli

inductive Input where
  | terminal
  | bytes (content : ByteArray)
  /-- Reading fails, for this reason. -/
  | failing (reason : String)

inductive Shell where
  | bash
  | elvish
  | fish
  | powerShell
  | zsh
deriving DecidableEq, Repr

def Shell.ofName? (name : String) : Option Shell :=
  match name with
  | "bash" => some bash
  | "elv" => some elvish
  | "fish" => some fish
  | "ps1" => some powerShell
  | "zsh" => some zsh
  | _ => none

/-- What the program leaves to others. -/
structure Libraries where
  readArguments : Reader
  readJson : Json.Reader
  writeJson : Json → Except String (List Char)
  /-- Writes JSON with so many spaces for each array and object that an item is inside of. -/
  writeIndented : Nat → Json → Except String ByteArray
  completions : Shell → List Char

inductive Command where
  | reformat
  | compact
  | tokenize
  | keywords
  | completions
deriving DecidableEq, Repr

namespace Command

def all : List Command :=
  [reformat, compact, tokenize, keywords, completions]

def name : Command → String
  | reformat => "reformat"
  | compact => "compact"
  | tokenize => "tokenize"
  | keywords => "keywords"
  | completions => "completions"

def ofName? (text : String) : Option Command :=
  all.find? (·.name == text)

end Command

section
open PocketBasic.Cli.Action

variable (libraries : Libraries) (host : Host)

/-- The settings of a command line, or the defaults if it gives none. An empty text is given too,
and refused. -/
def loadSettings (given : Matches) : Action Settings :=
  match given.config? with
  | some text => do
    let (settings, warnings) ←
      ofExcept .refused (Settings.parseWith host.windows libraries.readJson text)
    warnings.forM fun warning => log (.setting warning)
    return settings
  | none => return .defaults host.windows

def readListing (command : Command) : Input → Action (List Char)
  | .terminal => do
    log (.typedInput command.name)
    fail .invalidCommand
  | .failing reason => do
    log (.unreadable command.name)
    fail (.external reason)
  | .bytes content =>
    match String.fromUTF8? content with
    | none => do
      log (.unreadable command.name)
      fail .invalidEncoding
    | some text =>
      if text.toList = [] then do
        log (.noInput command.name)
        fail .invalidCommand
      else return text.toList

/-- Tokens as JSON text, on one line or indented. -/
def showJson (indent : Option Nat) (tokens : List Token) : Action (List Char) :=
  let value := Token.streamJson tokens
  match indent with
  | none => ofExcept .external (libraries.writeJson value)
  | some width => do
    let content ← ofExcept .external (libraries.writeIndented width value)
    match String.fromUTF8? content with
    | some text => return text.toList
    | none => fail .unknownFormat

def rewriteListing (command : Command)
    (rewrite : Keyword.Table → LineEnding → List Char → List Char) (input : Input)
    (given : Matches) : Action Unit := do
  let settings ← loadSettings libraries host given
  let text ← readListing command input
  write host (rewrite settings.table settings.ending text)

def showTokens (input : Input) (given : Matches) : Action Unit := do
  let settings ← loadSettings libraries host given
  let text ← readListing .tokenize input
  let tokens := Token.tokenize settings.table text
  if given.flag "console" || host.display.terminal then
    tokens.forM fun token => print host (Console.line host.display.color token)
  else
    let json ← showJson libraries (given.number? "indent") tokens
    print host (json ++ ['\n'])

def select {α : Type} (ofSelector : String → Except Error α) (selector : Option (List Char)) :
    Action (Option α) :=
  match selector with
  | some text => some <$> ofExcept .refused (ofSelector (String.ofList text))
  | none => return none

/-- The keywords of a table that belong to a tier and a kind, if these are given. -/
def selectKeywords (table : Keyword.Table) (tier : Option Tier) (kind : Option Keyword.Kind) :
    List Keyword :=
  table.keywords.filter fun keyword =>
    tier.all (· == keyword.tier) && kind.all (· == keyword.kind)

def showKeywords (given : Matches) : Action Unit := do
  let settings ← loadSettings libraries host given
  let tier ← select Tier.ofSelector (given.text? "category")
  let kind ← select Keyword.Kind.ofSelector (given.text? "kind")
  (selectKeywords settings.table tier kind).forM fun keyword =>
    print host (keyword.display ++ ['\n'])

def showCompletions (given : Matches) : Action Unit :=
  match given.text? "shell" with
  | none => fail .invalidCommand
  | some name =>
    match Shell.ofName? (String.ofList name) with
    | some shell => print host (libraries.completions shell)
    | none => do
      log (.unknownShell (String.ofList name))
      fail .invalidCommand

def Command.action (input : Input) (given : Matches) : Command → Action Unit
  | reformat => rewriteListing libraries host .reformat PocketBasic.reformat input given
  | compact => rewriteListing libraries host .compact PocketBasic.compact input given
  | tokenize => showTokens libraries host input given
  | keywords => showKeywords libraries host given
  | completions => showCompletions libraries host given

/-- Does what a command line asks for, if it names a command. -/
def follow (input : Input) (command : Option (String × Matches)) : Action Unit :=
  match command.bind fun (name, given) => (Command.ofName? name).map fun found => (found, given) with
  | some (found, given) => found.action libraries host input given
  | none => do
    log .noCommand
    fail .invalidCommand

end

structure Outcome where
  exit : Nat
  output : List Char
  log : List Notice
deriving DecidableEq, Repr

/-- The end of a run. A cause that it gives up for is logged. -/
def Outcome.ofRun : Except Fault Unit × Record → Outcome
  | (.ok _, record) => ⟨0, record.output, record.log⟩
  | (.error (.failed cause), record) => ⟨1, record.output, record.log ++ [cause]⟩
  | (.error .panicked, record) => ⟨101, record.output, record.log⟩

def execute (libraries : Libraries) (host : Host) (arguments : List ByteArray) (input : Input) :
    Outcome :=
  match libraries.readArguments arguments with
  | .ended status text => ⟨status, ((Action.offer host text).run {}).2.output, []⟩
  | .matched command => .ofRun ((follow libraries host input command).perform {})

end PocketBasic.Cli
