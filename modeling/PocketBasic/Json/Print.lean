import PocketBasic.Json.Basic
import PocketBasic.Json.Quoted
import PocketBasic.Text.Decimal

/-! Writing JSON, on one line or with every item on a line of its own. -/

namespace PocketBasic.Json

inductive Layout where
  | compact
  /-- Each item on its own line, with `width` spaces for each array or object it is inside of. -/
  | indented (width : Nat)
deriving DecidableEq, Repr

/-- What stands before an item that is inside of `depth` arrays and objects. -/
def Layout.lineBreak (layout : Layout) (depth : Nat) : List Char :=
  match layout with
  | compact => []
  | indented width => '\n' :: List.replicate (width * depth) ' '

def Layout.colon : Layout → List Char
  | compact => [':']
  | indented _ => [':', ' ']

/-- A number, with a power of ten only if it needs one. -/
def Number.render (number : Number) : List Char :=
  (if number.negative then ['-'] else []) ++ Text.decimal number.significand ++
    (if number.exponent = 0 then []
    else if number.exponent < 0 then
      ['e', '-'] ++ Text.decimal number.exponent.natAbs
    else 'e' :: Text.decimal number.exponent.natAbs)

mutual

/-- A value that is inside of `depth` arrays and objects. -/
def renderAt (layout : Layout) (depth : Nat) : Json → List Char
  | null => ['n', 'u', 'l', 'l']
  | bool true => ['t', 'r', 'u', 'e']
  | bool false => ['f', 'a', 'l', 's', 'e']
  | number value => value.render
  | string text => quote text
  | array [] => ['[', ']']
  | array (item :: items) =>
    '[' :: layout.lineBreak (depth + 1) ++ renderAt layout (depth + 1) item ++
      renderItems layout (depth + 1) items ++ layout.lineBreak depth ++ [']']
  | object [] => ['{', '}']
  | object ((key, value) :: members) =>
    '{' :: layout.lineBreak (depth + 1) ++ quote key ++ layout.colon ++
      renderAt layout (depth + 1) value ++ renderMembers layout (depth + 1) members ++
      layout.lineBreak depth ++ ['}']

def renderItems (layout : Layout) (depth : Nat) : List Json → List Char
  | [] => []
  | item :: items =>
    ',' :: layout.lineBreak depth ++ renderAt layout depth item ++ renderItems layout depth items

def renderMembers (layout : Layout) (depth : Nat) : List (List Char × Json) → List Char
  | [] => []
  | (key, value) :: members =>
    ',' :: layout.lineBreak depth ++ quote key ++ layout.colon ++ renderAt layout depth value ++
      renderMembers layout depth members

end

def render (layout : Layout) (value : Json) : List Char :=
  renderAt layout 0 value

end PocketBasic.Json
