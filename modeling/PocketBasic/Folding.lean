import PocketBasic.LineEnding
import PocketBasic.Text.Blank

/-! Folding: dropping the blanks that the machine skips. Strings and comments keep theirs. Every
character that stays is marked with the offset at which it stood and the mode in which it was
read, so that spans of the folded text can be carried back to the text it came from. -/

namespace PocketBasic.Folding

inductive Mode where
  /-- Outside of strings and comments, where blanks mean nothing. -/
  | code
  | quoted
  | comment
  /-- After the first letter of a REM and before its last. -/
  | rem
deriving DecidableEq, Repr

/-- Whether the text starts with the letters, blanks in front of each of them apart. -/
def startsSpaced : List Char → List Char → Bool
  | [], _ => true
  | letter :: letters, text =>
    match Text.trimLeft text with
    | [] => false
    | c :: rest => c == letter && startsSpaced letters rest

def completesRem (rest : List Char) : Bool :=
  startsSpaced ['E', 'M'] rest

namespace Mode

/-- Where the reader stands after `c`, with `rest` still to come. A terminator ends strings and
comments alike. -/
def next (mode : Mode) (c : Char) (rest : List Char) : Mode :=
  if isTerminator c then code
  else match mode with
    | comment => comment
    | quoted => if c = '"' then code else quoted
    | rem => if c = 'M' then comment else rem
    | code =>
      if c = '"' then quoted
      else if c = '\'' then comment
      else if c = 'R' ∧ completesRem rest then rem
      else code

def isVerbatim : Mode → Bool
  | quoted | comment => true
  | code | rem => false

end Mode

structure Mark where
  char : Char
  offset : Nat
  /-- Where the reader stood just before the character. -/
  mode : Mode
deriving DecidableEq, Repr

def Mark.stop (mark : Mark) : Nat :=
  mark.offset + mark.char.utf8Size

def Mark.offsets (mark : Mark) : List Nat :=
  List.range' mark.offset mark.char.utf8Size

def foldFrom (mode : Mode) (offset : Nat) : List Char → List Mark
  | [] => []
  | c :: rest =>
    let marks := foldFrom (mode.next c rest) (offset + c.utf8Size) rest
    if mode.isVerbatim || !Text.isBlank c then ⟨c, offset, mode⟩ :: marks else marks

/-- Drops the blanks outside of strings and comments. -/
def fold (text : List Char) : List Mark :=
  foldFrom .code 0 text

def text (marks : List Mark) : List Char :=
  marks.map Mark.char

/-- For each byte of the kept characters, the offset at which it stood. -/
def origin (marks : List Mark) : List Nat :=
  marks.flatMap Mark.offsets

end PocketBasic.Folding
