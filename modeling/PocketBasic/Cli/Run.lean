import PocketBasic.Cli.Arguments
import PocketBasic.Json.Print

/-! The program put together, with libraries of its own. -/

namespace PocketBasic.Cli

def Libraries.own : Libraries where
  readArguments := .standard
  readJson := Json.read
  writeJson value := .ok (value.render .compact)
  writeIndented width value := .ok (String.ofList (value.render (.indented width))).toUTF8
  completions shell := (Guidance.completions shell).toList

/-- A host whose standard output takes everything. -/
def Host.standard (windows : Bool) (display : Display) : Host :=
  ⟨windows, display, fun _ _ => none⟩

/-- Runs a command line on a host that does not run Windows. -/
def run (display : Display) (arguments : List String) (input : Input) : Outcome :=
  execute .own (.standard false display) (arguments.map String.toUTF8) input

def readsListing (arguments : List String) : Bool :=
  match Reader.standard (arguments.map String.toUTF8) with
  | .matched (some (name, _)) => [.reformat, .compact, .tokenize].any fun command : Command =>
    command.name == name
  | _ => false

end PocketBasic.Cli
