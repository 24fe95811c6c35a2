import PocketBasic.Json.Lexeme

/-! Reading JSON. The lexemes are taken one at a time by a machine that remembers the arrays and
objects it is inside of, innermost first, and what must come next. -/

namespace PocketBasic.Json

/-- An array or object that is being read, with what it holds so far, last first. -/
inductive Frame where
  | array (items : List Json)
  | object (members : List (List Char × Json)) (key : List Char)

/-- What the machine expects next. `outer` is what it is inside of. -/
inductive Expectation where
  | value (outer : List Frame)
  | item (outer : List Frame)
  | firstKey (outer : List Frame)
  | key (outer : List Frame) (members : List (List Char × Json))
  | colon (outer : List Frame) (members : List (List Char × Json)) (key : List Char)
  | following (outer : List Frame) (value : Json)

def maxDepth : Nat :=
  127

namespace Expectation

def start? (outer : List Frame) : Lexeme → Option Expectation
  | .scalar read => some (following outer read)
  | .openArray => if outer.length < maxDepth then some (item outer) else none
  | .openObject => if outer.length < maxDepth then some (firstKey outer) else none
  | _ => none

def step? : Expectation → Lexeme → Option Expectation
  | value outer, lexeme => start? outer lexeme
  | item outer, .closeArray => some (following outer (.array []))
  | item outer, lexeme => start? (.array [] :: outer) lexeme
  | firstKey outer, .closeObject => some (following outer (.object []))
  | firstKey outer, .scalar (.string name) => some (colon outer [] name)
  | key outer members, .scalar (.string name) => some (colon outer members name)
  | colon outer members name, .colon => some (value (.object members name :: outer))
  | following (.array items :: outer) last, .comma => some (value (.array (last :: items) :: outer))
  | following (.array items :: outer) last, .closeArray =>
    some (following outer (.array (last :: items).reverse))
  | following (.object members name :: outer) last, .comma =>
    some (key outer ((name, last) :: members))
  | following (.object members name :: outer) last, .closeObject =>
    some (following outer (.object ((name, last) :: members).reverse))
  | _, _ => none

def result? : Expectation → Option Json
  | following [] read => some read
  | _ => none

end Expectation

/-- The value that a text writes, if it writes one and nothing else. -/
def parse? (text : List Char) : Option Json := do
  let final ← (← lexemes? text).foldlM Expectation.step? (.value [])
  final.result?

/-- How a library reads JSON. It may say why it refuses a text. -/
abbrev Reader := List Char → Except (Option String) Json

def read : Reader := fun text =>
  match parse? text with
  | some root => .ok root
  | none => .error none

end PocketBasic.Json
