/-! Runs of characters whose upper-case forms lie as far apart as they do. -/

namespace PocketBasic.Text.UpperCase

/-- Every `step`-th code point from `first` to `last`. The first of them maps to `target`, and the
others follow it at the same distance. -/
structure Run where
  first : Nat
  last : Nat
  step : Nat
  target : Nat
deriving DecidableEq, Repr

def Run.map? (run : Run) (code : Nat) : Option Nat :=
  if run.first ≤ code ∧ code ≤ run.last ∧ (code - run.first) % run.step = 0 then
    some (run.target + (code - run.first))
  else none

end PocketBasic.Text.UpperCase
