/-! JSON values. Objects keep their members as they were written; of members with the same key the
last one counts. -/

namespace PocketBasic

/-- A number `± significand · 10 ^ exponent`. -/
structure Json.Number where
  negative : Bool
  significand : Nat
  exponent : Int
deriving DecidableEq, Repr

inductive Json where
  | null
  | bool (value : Bool)
  | number (value : Json.Number)
  | string (value : List Char)
  | array (items : List Json)
  | object (members : List (List Char × Json))

namespace Json

def ofNat (n : Nat) : Json :=
  number ⟨false, n, 0⟩

def get? (key : List Char) : Json → Option Json
  | object members => (members.reverse.find? (·.1 == key)).map (·.2)
  | _ => none

/-- The members that count: of members with the same key, all but the last are left out. -/
def lastMembers : List (List Char × Json) → List (List Char × Json)
  | [] => []
  | (key, value) :: members =>
    if members.any (·.1 == key) then lastMembers members
    else (key, value) :: lastMembers members

/-- The members that count, if this is an object. Each key is listed once. -/
def entries : Json → List (List Char × Json)
  | object members => lastMembers members
  | _ => []

def bool? : Json → Option Bool
  | bool value => some value
  | _ => none

def string? : Json → Option (List Char)
  | string value => some value
  | _ => none

def array? : Json → Option (List Json)
  | array items => some items
  | _ => none

/-- The count, if this is a number written as a plain count. -/
def nat? : Json → Option Nat
  | number ⟨false, significand, 0⟩ => some significand
  | _ => none

/-- The truth value under a key, or `current` if there is none. -/
def updatedBool (value : Json) (key : List Char) (current : Bool) : Bool :=
  ((value.get? key).bind bool?).getD current

def updatedString (value : Json) (key : List Char) (current : List Char) : List Char :=
  ((value.get? key).bind string?).getD current

end Json

end PocketBasic
