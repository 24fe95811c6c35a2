/-! Decimal numbers as text. -/

namespace PocketBasic.Text

def digitValue (digit : Char) : Nat :=
  digit.toNat - '0'.toNat

/-- The number that decimal digits write, whatever their count. -/
def decimalValue (digits : List Char) : Nat :=
  digits.foldl (fun n digit => 10 * n + digitValue digit) 0

def decimal (n : Nat) : List Char :=
  Nat.toDigits 10 n

end PocketBasic.Text
