import PocketBasic.Error
import PocketBasic.Text.Blank
import PocketBasic.Text.Decimal

/-! Line numbers. A line may start with its number, and the machine skips blanks between the
digits as it does elsewhere, so `1 0 PRINT` is line 10. Digits that write no number from 1 to 65535
are part of the line and not its number. -/

namespace PocketBasic

structure LineNumber where
  value : Nat
  pos : 1 ≤ value
  le_max : value ≤ 65535
deriving DecidableEq, Repr

namespace LineNumber

def ofNat? (n : Nat) : Option LineNumber :=
  if h : 1 ≤ n ∧ n ≤ 65535 then some ⟨n, h.1, h.2⟩ else none

/-- Reads a number in decimal: one plus sign may stand in front, and zeros may lead. -/
def parse (text : List Char) : Except Error LineNumber :=
  let digits := if text.head? = some '+' then text.tail else text
  if digits ≠ [] ∧ digits.all Char.isDigit then
    match ofNat? (Text.decimalValue digits) with
    | some number => .ok number
    | none => .error .invalidLineNumber
  else .error .invalidLineNumber

def text (number : LineNumber) : List Char :=
  Text.decimal number.value

/-- The digits in front of a line, which blanks may separate, and what follows the last of them.
Without a digit the line is left whole. -/
def leadingDigits : List Char → List Char × List Char
  | [] => ([], [])
  | c :: rest =>
    if c.isDigit then
      let (digits, after) := leadingDigits rest
      (c :: digits, after)
    else if Text.isBlank c then
      match leadingDigits rest with
      | ([], _) => ([], c :: rest)
      | found => found
    else ([], c :: rest)

/-- Takes the number off the front of a line. What is left starts right after the last digit; a
line without a valid number is left whole. -/
def split (line : List Char) : Option LineNumber × List Char :=
  let (digits, after) := leadingDigits line
  match parse digits with
  | .ok number => (some number, after)
  | .error _ => (none, line)

end LineNumber

end PocketBasic
