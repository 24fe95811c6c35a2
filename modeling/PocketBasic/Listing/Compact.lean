import PocketBasic.Lexeme.Reading
import PocketBasic.LineNumber
import PocketBasic.Program

/-! The compact listing of a line and of a program: every keyword in its compact spelling, no
blanks but those of strings and comments, and comments left alone. -/

namespace PocketBasic

def Lexeme.compactForm (table : Keyword.Table) (lexeme : Lexeme) : List Char :=
  (lexeme.keyword? table).elim lexeme.text Keyword.compactForm

def compactLine (table : Keyword.Table) (line : List Char) : List Char :=
  let (number, body) := LineNumber.split line
  number.elim [] LineNumber.text ++
    (Lexeme.ofText table body).flatMap (Lexeme.compactForm table)

/-- The compact form of a program. `ending` is its line ending if it has no terminator. -/
def compact (table : Keyword.Table) (ending : LineEnding) (text : List Char) : List Char :=
  ((Program.split text ending).map (compactLine table)).join

end PocketBasic
