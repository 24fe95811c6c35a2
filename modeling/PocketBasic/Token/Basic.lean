import PocketBasic.Lexeme.Basic

/-! Tokens: lexemes with the spans that they take up in the text they were read from. The spans
cover the text without gaps: blanks that folding dropped belong to the token after them, and those
at the end to the last token. -/

namespace PocketBasic

/-- A lexeme and the span that it takes up, in bytes. -/
structure Token extends Lexeme where
  start : Nat
  stop : Nat
deriving DecidableEq, Repr

namespace Token

def contiguous (start : Nat) : List Lexeme → List Token
  | [] => []
  | lexeme :: lexemes =>
    let stop := start + Text.byteLength lexeme.text
    ⟨lexeme, start, stop⟩ :: contiguous stop lexemes

/-- Gives lexemes the spans of the marks that they were read from. Each ends just after its last
mark, and the last one at `finish`. -/
def spread (start finish : Nat) : List Lexeme → List Folding.Mark → List Token
  | [], _ => []
  | [lexeme], _ => [⟨lexeme, start, finish⟩]
  | lexeme :: lexemes, marks =>
    let count := lexeme.text.length
    let stop := (marks.take count).getLast?.elim start Folding.Mark.stop
    ⟨lexeme, start, stop⟩ :: spread stop finish lexemes (marks.drop count)

def scan (table : Keyword.Table) (text : List Char) : List Token :=
  contiguous 0 (Lexeme.scan table text)

/-- The tokens of a text. A text of blanks alone is one token. -/
def tokenize (table : Keyword.Table) (text : List Char) : List Token :=
  let marks := Folding.fold text
  let finish := Text.byteLength text
  match Lexeme.scan table (Folding.text marks) with
  | [] => if text = [] then [] else [⟨⟨.blank, text⟩, 0, finish⟩]
  | lexemes => spread 0 finish lexemes marks

end Token

end PocketBasic
