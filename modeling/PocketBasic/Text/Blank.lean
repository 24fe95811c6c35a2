/-! Blanks. The machine skips spaces and tabs almost everywhere and no other character, so these
two are the only characters that trimming removes and that may be missing from a listing without
changing what it reads as. -/

namespace PocketBasic.Text

/-- A property of every character in a list is decided along the list. Characters are finitely many,
so the search could as well settle it by going through all of them. -/
instance decidableForall {p : Char → Prop} [DecidablePred p] (text : List Char) :
    Decidable (∀ c ∈ text, p c) :=
  List.decidableBAll p text

/-- Spaces and tabs are blank, and nothing else is. -/
def isBlank (c : Char) : Bool :=
  c == ' ' || c == '\t'

/-- A line is blank when it holds blanks only; the empty line is blank. -/
def isBlankLine (line : List Char) : Bool :=
  line.all isBlank

def trimLeft (text : List Char) : List Char :=
  text.dropWhile isBlank

/-- Drops the blanks at the end: a blank goes exactly when nothing is left after it. -/
def trimRight : List Char → List Char
  | [] => []
  | c :: rest =>
    match trimRight rest with
    | [] => if isBlank c then [] else [c]
    | kept => c :: kept

def trim (text : List Char) : List Char :=
  trimRight (trimLeft text)

def startsBlank : List Char → Bool
  | [] => false
  | c :: _ => isBlank c

end PocketBasic.Text
