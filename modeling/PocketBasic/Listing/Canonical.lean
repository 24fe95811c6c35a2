import PocketBasic.Listing.Settled
import PocketBasic.Program

/-! The canonical listing of a line and of a program: the line number, and the body as the machine
shows it. -/

namespace PocketBasic

/-- A line as it is listed: its number, and its settled entries with the positions of those that
were found to need the spelling they were typed with. -/
structure Listing where
  number : Option LineNumber
  entries : List Listing.Entry
  kept : List Nat
deriving DecidableEq, Repr

namespace Listing

def start (lexemes : List Lexeme) : List Entry :=
  lexemes.map (⟨·, false⟩)

/-- The listing of a line without terminators. Blanks around the line, and around what follows its
number, do not count. -/
def ofLine (table : Keyword.Table) (line : List Char) : Listing :=
  let (number, body) := LineNumber.split (Text.trim line)
  let (entries, kept) := settle table (start (Lexeme.ofText table (Text.trim body)))
  ⟨number, entries, kept⟩

def text (table : Keyword.Table) (listing : Listing) : List Char :=
  let body := render table listing.entries
  match listing.number with
  | none => body
  | some number => number.text ++ (if listing.entries = [] then [] else [' ']) ++ body

def keptSpellings (listing : Listing) : List (List Char) :=
  listing.kept.filterMap fun i => (listing.entries[i]?).map (·.lexeme.text)

end Listing

def reformatLine (table : Keyword.Table) (line : List Char) : List Char :=
  (Listing.ofLine table line).text table

/-- The canonical form of a program. `ending` is its line ending if it has no terminator. -/
def reformat (table : Keyword.Table) (ending : LineEnding) (text : List Char) : List Char :=
  ((Program.split text ending).map (reformatLine table)).join

def keptSpellings (table : Keyword.Table) (text : List Char) : List (List Char) :=
  ((Program.cutLines text).filter fun line => !Text.isBlankLine line).flatMap fun line =>
    (Listing.ofLine table line).keptSpellings

end PocketBasic
