import PocketBasic.Error
import PocketBasic.Text.Offset
import PocketBasic.Text.UpperCase

/-! Keywords. The machine accepts a keyword under its full name and, if it has an abbreviation,
under that too: followed by a period, and bare unless it is a single letter, which would be a
variable. -/

namespace PocketBasic

inductive Tier where
  | core
  /-- The CE-150 printer and plotter. -/
  | ce150
  /-- The CE-158 communications interface. -/
  | ce158
deriving DecidableEq, Repr

namespace Tier

/-- Every tier, in the order in which tables list their keywords. -/
def all : List Tier :=
  [core, ce150, ce158]

def name : Tier → String
  | core => "core"
  | ce150 => "ce150"
  | ce158 => "ce158"

def ofSelector (text : String) : Except Error Tier :=
  match all.find? (·.name == text) with
  | some tier => .ok tier
  | none => .error (.unknownSelector text)

end Tier

inductive Keyword.Kind where
  | statement
  | function
  | operator
  | other
deriving DecidableEq, Repr

namespace Keyword.Kind

def all : List Kind :=
  [statement, function, operator, other]

def name : Kind → String
  | statement => "statement"
  | function => "function"
  | operator => "operator"
  | other => "other"

def ofSelector (text : String) : Except Error Kind :=
  match all.find? (·.name == text) with
  | some kind => .ok kind
  | none => .error (.unknownSelector text)

end Keyword.Kind

structure Keyword where
  name : List Char
  /-- The abbreviation of the manual without its period, or the name if there is none. -/
  abbreviation : List Char
  code : UInt16
  tier : Tier
  kind : Keyword.Kind
deriving DecidableEq, Repr

namespace Keyword

def hasAbbreviation (keyword : Keyword) : Bool :=
  keyword.abbreviation != keyword.name

def hasHash (keyword : Keyword) : Bool :=
  keyword.name.getLast? == some '#'

/-- A spelling if it is shorter than the name, or else the name. -/
def ifShorter (keyword : Keyword) (spelling : List Char) : List Char :=
  if Text.byteLength spelling < Text.byteLength keyword.name then spelling else keyword.name

/-- The abbreviation as the manual lists it, with its period. -/
def listed (keyword : Keyword) : List Char :=
  keyword.ifShorter (keyword.abbreviation ++ ['.'])

/-- The abbreviation with its period if that is shorter than the name, or else the name. A `#` at the
end of the name comes between the abbreviation and the period. A bare abbreviation, which may be
shorter still, is not made use of. -/
def compactForm (keyword : Keyword) : List Char :=
  if keyword.hasAbbreviation && keyword.hasHash then
    keyword.ifShorter (keyword.abbreviation ++ ['#', '.'])
  else keyword.listed

def spellings (keyword : Keyword) : List (List Char) :=
  let short := Text.upper keyword.abbreviation
  Text.upper keyword.name ::
    if keyword.hasAbbreviation then
      (short ++ ['.']) :: (if 2 ≤ Text.byteLength short then [short] else []) ++
        (if keyword.hasHash then [short ++ ['#', '.']] else [])
    else []

/-- The name followed by the listed abbreviation, as a reference table shows them. -/
def display (keyword : Keyword) : List Char :=
  keyword.name ++ [' ', '('] ++ keyword.listed ++ [')']

end Keyword

end PocketBasic
