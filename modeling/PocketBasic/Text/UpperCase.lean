import PocketBasic.Text.UpperCase.Table

/-! Upper case. Each character is mapped by itself and may become several, as in `ß`, which
becomes `SS`. -/

namespace PocketBasic.Text

/-- The upper-case form of a character beyond ASCII, which is the character itself if the tables
do not list it. -/
def UpperCase.ofWide (c : Char) : List Char :=
  match expansions.find? (·.1 == c.toNat) with
  | some (_, codes) => codes.map Char.ofNat
  | none => [(runs.findSome? (·.map? c.toNat)).elim c Char.ofNat]

def upperChar (c : Char) : List Char :=
  if c.toNat < 128 then [c.toUpper] else UpperCase.ofWide c

def upper (text : List Char) : List Char :=
  text.flatMap upperChar

@[simp] theorem upper_nil : upper [] = [] := rfl

@[simp] theorem upper_cons (c : Char) (text : List Char) :
    upper (c :: text) = upperChar c ++ upper text := rfl

@[simp] theorem upper_append (a b : List Char) : upper (a ++ b) = upper a ++ upper b := by
  simp [upper]

end PocketBasic.Text
