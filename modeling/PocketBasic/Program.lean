import PocketBasic.LineEnding
import PocketBasic.Text.Blank

/-! Programs: a text cut into its lines, and the line ending that puts them together again. The
terminators of the text may differ; joining writes the first of them everywhere. -/

namespace PocketBasic

structure Program where
  lines : List (List Char)
  ending : LineEnding
deriving DecidableEq, Repr

namespace Program

def extendFirst (c : Char) : List (List Char) → List (List Char)
  | [] => [[c]]
  | line :: lines => (c :: line) :: lines

/-- The lines of a text. There is one more than there are terminators, so a terminator at the end
leaves an empty last line. -/
def cutLines : List Char → List (List Char)
  | [] => [[]]
  | '\r' :: '\n' :: rest => [] :: cutLines rest
  | '\r' :: rest => [] :: cutLines rest
  | '\n' :: rest => [] :: cutLines rest
  | c :: rest => extendFirst c (cutLines rest)

/-- Cuts a text into lines. Its first terminator becomes the line ending, and `fallback` does if
it has none. -/
def split (text : List Char) (fallback : LineEnding) : Program where
  lines := cutLines text
  ending := (LineEnding.detect? text).getD fallback

def join (program : Program) : List Char :=
  program.ending.text.intercalate program.lines

/-- Applies `f` to every line that is not blank; blank lines stay as they are. -/
def map (f : List Char → List Char) (program : Program) : Program :=
  { program with
    lines := program.lines.map fun line => if Text.isBlankLine line then line else f line }

end Program

end PocketBasic
