import PocketBasic.Json.Basic
import PocketBasic.Text.Decimal

/-! Numerals: JSON numbers as they are written. A reader takes digits into the significand as long
as it fits 64 bits and leaves out the others; those left out before the point still count for the
magnitude. A numeral whose value rounds to no finite double is refused. -/

namespace PocketBasic.Json

structure Numeral where
  negative : Bool
  whole : List Char
  fraction : List Char
  exponent : Int
deriving DecidableEq, Repr

def significandBound : Nat :=
  Nat.pow 2 64

/-- Takes digits into a significand while it fits, and gives it with the digits left over. -/
def takeDigits (significand : Nat) : List Char → Nat × List Char
  | [] => (significand, [])
  | digit :: digits =>
    let next := 10 * significand + Text.digitValue digit
    if next < significandBound then takeDigits next digits else (significand, digit :: digits)

/-- The number that a numeral stands for. -/
def Numeral.number (numeral : Numeral) : Number :=
  let (upper, dropped) := takeDigits 0 numeral.whole
  let (significand, unread) := takeDigits upper numeral.fraction
  let taken : Int := numeral.fraction.length - unread.length
  ⟨numeral.negative, significand, numeral.exponent + dropped.length - taken⟩

/-- The nearest number of 53 binary digits followed by zeros; of two as near, the one whose digits
are even. -/
def roundDouble (n : Nat) : Nat :=
  let unit := Nat.pow 2 (n.log2 + 1 - 53)
  let quotient := n / unit
  let remainder := n % unit
  if unit < 2 * remainder ∨ (unit = 2 * remainder ∧ quotient % 2 = 1) then (quotient + 1) * unit
  else quotient * unit

/-- The least number that rounds to infinity, halfway between the largest double and the next
power of two. -/
def infinityBound : Nat :=
  Nat.pow 2 1024 - Nat.pow 2 970

/-- Whether the number can be held as a double: its significand and its power of ten are rounded
first, and their product must stay below infinity. -/
def Number.isFinite (number : Number) : Bool :=
  number.exponent < 0 || number.significand == 0 ||
    (number.exponent ≤ 308 &&
      roundDouble number.significand * roundDouble (Nat.pow 10 number.exponent.toNat) < infinityBound)

def spanDigits (text : List Char) : List Char × List Char :=
  (text.takeWhile Char.isDigit, text.dropWhile Char.isDigit)

/-- The digits before the point: a zero stands alone. -/
def readWhole? : List Char → Option (List Char × List Char)
  | '0' :: rest => some (['0'], rest)
  | text =>
    match spanDigits text with
    | ([], _) => none
    | found => some found

/-- The point and the digits after it, which may be missing together. -/
def readFraction? : List Char → Option (List Char × List Char)
  | '.' :: rest =>
    match spanDigits rest with
    | ([], _) => none
    | found => some found
  | text => some ([], text)

def readSigned? (text : List Char) : Option (Int × List Char) :=
  let unsigned := if text.head? = some '+' ∨ text.head? = some '-' then text.tail else text
  match spanDigits unsigned with
  | ([], _) => none
  | (digits, rest) =>
    let size : Int := Text.decimalValue digits
    some (if text.head? = some '-' then -size else size, rest)

def readExponent? : List Char → Option (Int × List Char)
  | 'e' :: rest => readSigned? rest
  | 'E' :: rest => readSigned? rest
  | text => some (0, text)

def readNumeral? (text : List Char) : Option (Numeral × List Char) := do
  let negative := text.head? = some '-'
  let (whole, rest) ← readWhole? (if negative then text.tail else text)
  let (fraction, rest) ← readFraction? rest
  let (exponent, rest) ← readExponent? rest
  return (⟨negative, whole, fraction, exponent⟩, rest)

theorem length_spanDigits (text : List Char) :
    (spanDigits text).1.length + (spanDigits text).2.length = text.length := by
  rw [← List.length_append]
  simp [spanDigits, List.takeWhile_append_dropWhile]

theorem length_of_spanDigits {text digits rest : List Char}
    (h : spanDigits text = (digits, rest)) (ne : digits ≠ []) : rest.length < text.length := by
  have := length_spanDigits text
  have := List.length_pos_iff.mpr ne
  simp only [h] at *
  omega

theorem length_of_readWhole? {text digits rest : List Char}
    (h : readWhole? text = some (digits, rest)) : rest.length < text.length := by
  unfold readWhole? at h
  split at h
  · simp only [Option.some.injEq, Prod.mk.injEq] at h
    simp [← h.2]
  · split at h
    · cases h
    · rename_i ne
      rw [Option.some.injEq] at h
      exact length_of_spanDigits h fun e => ne rest (e ▸ h)

theorem length_of_readFraction? {text digits rest : List Char}
    (h : readFraction? text = some (digits, rest)) : rest.length ≤ text.length := by
  unfold readFraction? at h
  split at h
  · split at h
    · cases h
    · rename_i ne
      rw [Option.some.injEq] at h
      have := length_of_spanDigits h fun e => ne rest (e ▸ h)
      simp only [List.length_cons]
      omega
  · simp only [Option.some.injEq, Prod.mk.injEq] at h
    simp [h.2]

theorem length_of_readSigned? {text : List Char} {value : Int} {rest : List Char}
    (h : readSigned? text = some (value, rest)) : rest.length < text.length := by
  unfold readSigned? at h
  dsimp only at h
  split at h
  · cases h
  · rename_i digits after ne found
    simp only [Option.some.injEq, Prod.mk.injEq] at h
    have := length_of_spanDigits found ne
    split at this <;> simp only [List.length_tail, h.2] at this <;> omega

theorem length_of_readExponent? {text : List Char} {value : Int} {rest : List Char}
    (h : readExponent? text = some (value, rest)) : rest.length ≤ text.length := by
  unfold readExponent? at h
  split at h
  · have := length_of_readSigned? h
    simp only [List.length_cons]
    omega
  · have := length_of_readSigned? h
    simp only [List.length_cons]
    omega
  · simp only [Option.some.injEq, Prod.mk.injEq] at h
    simp [h.2]

/-- A numeral takes at least one character. -/
theorem length_of_readNumeral? {text : List Char} {numeral : Numeral} {rest : List Char}
    (h : readNumeral? text = some (numeral, rest)) : rest.length < text.length := by
  simp only [readNumeral?, Option.bind_eq_bind, Option.bind_eq_some_iff, Option.pure_def,
    Option.some.injEq, Prod.exists, Prod.mk.injEq] at h
  obtain ⟨_, _, whole, _, _, fraction, _, _, exponent, _, rfl⟩ := h
  have := length_of_readWhole? whole
  have := length_of_readFraction? fraction
  have := length_of_readExponent? exponent
  have : (if text.head? = some '-' then text.tail else text).length ≤ text.length := by
    split <;> simp
  omega

end PocketBasic.Json
