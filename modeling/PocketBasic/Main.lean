import PocketBasic.Cli.Run

/-! The program: connects the command line to the standard streams. -/

namespace PocketBasic

def isSet (name : String) : IO Bool := do
  return (← IO.getEnv name).any (· != "0")

/-- Colours are shown on a terminal unless the environment forbids them, and elsewhere only if it
forces them. -/
def findDisplay : IO Cli.Display := do
  let terminal ← (← IO.getStdout).isTty
  if ← isSet "CLICOLOR_FORCE" then return ⟨terminal, true⟩
  let forbidden := (← IO.getEnv "NO_COLOR").isSome || (← IO.getEnv "CLICOLOR") == some "0"
  return ⟨terminal, terminal && !forbidden⟩

/-- Windows names itself in the environment. -/
def findHost : IO Cli.Host := do
  return .standard ((← IO.getEnv "OS") == some "Windows_NT") (← findDisplay)

/-- Standard input is read only if the command line asks for a listing and it is not a terminal. -/
def findInput (arguments : List String) : IO Cli.Input := do
  let stdin ← IO.getStdin
  if !Cli.readsListing arguments || (← stdin.isTty) then return .terminal
  try return .bytes (← stdin.readBinToEnd)
  catch failure => return .failing (toString failure)

end PocketBasic

open PocketBasic in
def main (arguments : List String) : IO UInt32 := do
  let outcome := Cli.execute .own (← findHost) (arguments.map String.toUTF8)
    (← findInput arguments)
  for notice in outcome.log do
    IO.eprintln (notice.level.name ++ " " ++ notice.message)
  let stdout ← IO.getStdout
  stdout.putStr (String.ofList outcome.output)
  stdout.flush
  return outcome.exit.toUInt32
