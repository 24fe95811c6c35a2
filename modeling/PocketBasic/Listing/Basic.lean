import PocketBasic.Lexeme.Reading
import PocketBasic.LineNumber

/-! Listings: how the machine shows a line. Keywords have their full names, and one space follows
each of them, except in front of a comma or semicolon; comparisons are set off from the operands
next to them. Single keywords may keep the spelling they were typed with. -/

namespace PocketBasic.Listing

/-- A lexeme of the line, and whether it keeps the spelling it was typed with. -/
structure Entry where
  lexeme : Lexeme
  asTyped : Bool
deriving DecidableEq, Repr

namespace Entry

def spelling (table : Keyword.Table) (entry : Entry) : List Char :=
  if entry.asTyped then entry.lexeme.text
  else (entry.lexeme.keyword? table).elim entry.lexeme.text Keyword.name

/-- Whether the listing spells the lexeme other than it was typed. A `REM` is never respelled. -/
def isExpanded (table : Keyword.Table) (entry : Entry) : Bool :=
  !entry.asTyped && !entry.lexeme.isRem &&
    (entry.lexeme.keyword? table).any (·.name != entry.lexeme.text)

end Entry

def isSpaced (before after : Token.Kind) : Bool :=
  if before = .keyword then after != .symbol .comma && after != .symbol .semicolon
  else if after.isComparison then before.isOperand
  else if before.isComparison then after.isOperand
  else false

def gap (before : Option Token.Kind) (after : Token.Kind) : List Char :=
  if before.any (isSpaced · after) then [' '] else []

/-- What follows the word that opens a comment. The comment is set off by one space, unless it
starts with a blank itself. -/
def remark : List Entry → List Char
  | [] => []
  | entry :: _ =>
    (if Text.startsBlank entry.lexeme.text then [] else [' ']) ++ entry.lexeme.text

/-- Lists entries that follow one of the kind `before`. A comment reaches to the end of the line,
so it ends the listing. -/
def renderAfter (table : Keyword.Table) (before : Option Token.Kind) : List Entry → List Char
  | [] => []
  | entry :: entries =>
    let kind := entry.lexeme.kind
    gap before kind ++
      if entry.lexeme.isRem then remWord ++ remark entries
      else if kind = .comment then entry.lexeme.text
      else entry.spelling table ++ renderAfter table (some kind) entries

def render (table : Keyword.Table) (entries : List Entry) : List Char :=
  renderAfter table none entries

end PocketBasic.Listing
