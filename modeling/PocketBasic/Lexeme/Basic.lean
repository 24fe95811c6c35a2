import PocketBasic.Folding
import PocketBasic.Keyword.Table
import PocketBasic.Token.Kind

/-! Lexemes: the parts that a folded text is read as, in order and without gaps. A `REM` always
opens a comment, so a keyword may not reach into one; apart from that, the longest spelling of a
keyword wins. Every text has a reading, since a character that is nothing else is read as an
identifier. -/

namespace PocketBasic

/-- A part of a text, and what it is read as. -/
structure Lexeme where
  kind : Token.Kind
  text : List Char
deriving DecidableEq, Repr

def remWord : List Char :=
  ['R', 'E', 'M']

def startsRem (text : List Char) : Bool :=
  remWord.isPrefixOf text

namespace Lexeme

def isRem (lexeme : Lexeme) : Bool :=
  lexeme.kind == .keyword && lexeme.text == remWord

inductive Place where
  | lineStart
  | inLine
  | afterRem
deriving DecidableEq, Repr

def placeAfter (lexeme : Lexeme) : Place :=
  if lexeme.kind = .newline then .lineStart
  else if lexeme.isRem then .afterRem
  else .inLine

def digitRun (text : List Char) : Nat :=
  (text.takeWhile Char.isDigit).length

def lineRun (text : List Char) : Nat :=
  (text.takeWhile fun c => !isTerminator c).length

def fractionRun : List Char → Nat
  | '.' :: rest => 1 + digitRun rest
  | _ => 0

def signRun : List Char → Nat
  | '+' :: _ => 1
  | '-' :: _ => 1
  | _ => 0

/-- The length of the exponent in front of a text. Without a digit there is none. -/
def exponentRun : List Char → Nat
  | 'E' :: rest =>
    let sign := signRun rest
    let digits := digitRun (rest.drop sign)
    if digits = 0 then 0 else 1 + sign + digits
  | _ => 0

def fractionalRun (text : List Char) : Nat :=
  let digits := digitRun text
  digits + exponentRun (text.drop digits)

def numberRun (text : List Char) : Nat :=
  let whole := digitRun text
  let fraction := fractionRun (text.drop whole)
  whole + fraction + exponentRun (text.drop (whole + fraction))

/-- What is left of a string after its opening quote, in characters. A string without a closing
quote stops at the end of the line. -/
def stringRun : List Char → Nat
  | [] => 0
  | c :: rest => if c = '"' then 1 else if isTerminator c then 0 else 1 + stringRun rest

/-- Whether a `REM` starts at one of the first `n` characters. -/
def remWithin : Nat → List Char → Bool
  | 0, _ => false
  | _, [] => false
  | n + 1, c :: rest => startsRem (c :: rest) || remWithin n rest

/-- The longest spelling in front of a text that no `REM` after its first character interrupts. -/
def keywordAt? (table : Keyword.Table) (text : List Char) : Option Keyword.Spelling :=
  Keyword.Spelling.longest? <| table.spellings.filter fun spelling =>
    spelling.text.isPrefixOf text && !remWithin (spelling.text.length - 1) text.tail

/-- Reads a character, with `rest` after it, as a symbol or an identifier. Gives the number of
further characters that belong to it. -/
def markOrName (c : Char) (rest : List Char) : Token.Kind × Nat :=
  match rest.head?.bind (Symbol.ofPair? c) with
  | some symbol => (.symbol symbol, 1)
  | none =>
    match Symbol.ofChar? c with
    | some symbol => (.symbol symbol, 0)
    | none => (.identifier, if c.isAlpha && rest.head? == some '$' then 1 else 0)

/-- Reads what starts with `c`, with `rest` after it. Gives its kind and the number of further
characters that belong to it. -/
def head (table : Keyword.Table) (place : Place) (c : Char) (rest : List Char) :
    Token.Kind × Nat :=
  if isTerminator c then (.newline, if c == '\r' && rest.head? == some '\n' then 1 else 0)
  else if place = .afterRem then (.comment, lineRun rest)
  else if c.isDigit then
    if place = .lineStart then (.lineNumber, digitRun rest) else (.number, numberRun rest)
  else if c == '.' && rest.head?.any Char.isDigit then (.number, fractionalRun rest)
  else if c = '"' then (.string, stringRun rest)
  else if c = '\'' then (.comment, lineRun rest)
  else if startsRem (c :: rest) then (.keyword, 2)
  else match keywordAt? table (c :: rest) with
    | some spelling => (.keyword, spelling.text.length - 1)
    | none => markOrName c rest

def scanFrom (table : Keyword.Table) (place : Place) : List Char → List Lexeme
  | [] => []
  | c :: rest =>
    let (kind, further) := head table place c rest
    let lexeme : Lexeme := ⟨kind, c :: rest.take further⟩
    lexeme :: scanFrom table lexeme.placeAfter (rest.drop further)
termination_by text => text.length

/-- The lexemes of a folded text. -/
def scan (table : Keyword.Table) (text : List Char) : List Lexeme :=
  scanFrom table .lineStart text

/-- The lexemes of a text as it is typed. -/
def ofText (table : Keyword.Table) (text : List Char) : List Lexeme :=
  scan table (Folding.text (Folding.fold text))

@[simp] theorem scanFrom_nil (table : Keyword.Table) (place : Place) :
    scanFrom table place [] = [] := by
  rw [scanFrom]

theorem scanFrom_cons (table : Keyword.Table) (place : Place) (c : Char) (rest : List Char) :
    scanFrom table place (c :: rest) =
      ⟨(head table place c rest).1, c :: rest.take (head table place c rest).2⟩ ::
        scanFrom table
          (placeAfter ⟨(head table place c rest).1, c :: rest.take (head table place c rest).2⟩)
          (rest.drop (head table place c rest).2) := by
  rw [scanFrom]

theorem flatMap_text_scanFrom (table : Keyword.Table) (place : Place) (text : List Char) :
    (scanFrom table place text).flatMap Lexeme.text = text := by
  fun_induction scanFrom table place text with
  | case1 => rfl
  | case2 place c rest kind further found lexeme ih =>
    rw [List.flatMap_cons, ih]
    simp [lexeme]

end Lexeme

end PocketBasic
