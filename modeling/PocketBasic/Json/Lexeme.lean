import PocketBasic.Json.Numeral
import PocketBasic.Json.Quoted

/-! Lexemes of JSON: the marks that give a text its structure, and the values without parts. -/

namespace PocketBasic.Json

/-- A mark of the structure, or a value without parts. -/
inductive Lexeme where
  | openArray
  | closeArray
  | openObject
  | closeObject
  | comma
  | colon
  | scalar (value : Json)

def isWhite (c : Char) : Bool :=
  c == ' ' || c == '\t' || c == '\n' || c == '\r'

def afterWord? (word text : List Char) : Option (List Char) :=
  if word.isPrefixOf text then some (text.drop word.length) else none

def readWord? (text : List Char) : Option (Json × List Char) :=
  ((afterWord? ['n', 'u', 'l', 'l'] text).map (null, ·)).or <|
  ((afterWord? ['t', 'r', 'u', 'e'] text).map (bool true, ·)).or <|
  (afterWord? ['f', 'a', 'l', 's', 'e'] text).map (bool false, ·)

/-- A number that a double can hold. -/
def readNumber? (text : List Char) : Option (Json × List Char) := do
  let (numeral, rest) ← readNumeral? text
  if numeral.number.isFinite then some (number numeral.number, rest) else none

def Lexeme.read? : List Char → Option (Lexeme × List Char)
  | [] => none
  | '[' :: rest => some (openArray, rest)
  | ']' :: rest => some (closeArray, rest)
  | '{' :: rest => some (openObject, rest)
  | '}' :: rest => some (closeObject, rest)
  | ',' :: rest => some (comma, rest)
  | ':' :: rest => some (colon, rest)
  | '"' :: rest => (readQuoted? none rest).map fun (chars, rest) => (scalar (string chars), rest)
  | text => ((readWord? text).or (readNumber? text)).map fun (value, rest) => (scalar value, rest)

theorem length_of_afterWord? {word text rest : List Char} (ne : word ≠ [])
    (h : afterWord? word text = some rest) : rest.length < text.length := by
  unfold afterWord? at h
  split at h
  · rename_i prefixed
    have := (List.isPrefixOf_iff_prefix.mp prefixed).length_le
    have := List.length_pos_iff.mpr ne
    simp only [Option.some.injEq] at h
    simp only [← h, List.length_drop]
    omega
  · cases h

theorem length_of_readWord? {text rest : List Char} {value : Json}
    (h : readWord? text = some (value, rest)) : rest.length < text.length := by
  simp only [readWord?, Option.or_eq_some_iff, Option.map_eq_some_iff, Prod.mk.injEq] at h
  rcases h with ⟨_, found, _, rfl⟩ | ⟨_, ⟨_, found, _, rfl⟩ | ⟨_, _, found, _, rfl⟩⟩ <;>
    exact length_of_afterWord? (by simp) found

theorem length_of_readNumber? {text rest : List Char} {value : Json}
    (h : readNumber? text = some (value, rest)) : rest.length < text.length := by
  simp only [readNumber?, Option.bind_eq_bind, Option.bind_eq_some_iff, Prod.exists] at h
  obtain ⟨numeral, after, found, h⟩ := h
  split at h
  · simp only [Option.some.injEq, Prod.mk.injEq] at h
    exact h.2 ▸ length_of_readNumeral? found
  · cases h

/-- A lexeme takes at least one character. -/
theorem Lexeme.length_of_read? {text rest : List Char} {lexeme : Lexeme}
    (h : read? text = some (lexeme, rest)) : rest.length < text.length := by
  unfold read? at h
  split at h
  case h_1 => cases h
  case h_8 =>
    simp only [Option.map_eq_some_iff, Prod.exists, Prod.mk.injEq] at h
    obtain ⟨_, _, found, _, rfl⟩ := h
    have := length_of_readQuoted? found
    simp only [List.length_cons]
    omega
  case h_9 =>
    simp only [Option.map_eq_some_iff, Option.or_eq_some_iff, Prod.exists, Prod.mk.injEq] at h
    obtain ⟨_, _, found | ⟨_, found⟩, _, rfl⟩ := h
    · exact length_of_readWord? found
    · exact length_of_readNumber? found
  all_goals
    simp only [Option.some.injEq, Prod.mk.injEq] at h
    simp [h.2]

def lexemes? (text : List Char) : Option (List Lexeme) :=
  match _w : text.dropWhile isWhite with
  | [] => some []
  | c :: rest =>
    match _h : Lexeme.read? (c :: rest) with
    | none => none
    | some (lexeme, after) => (lexemes? after).map (lexeme :: ·)
termination_by text.length
decreasing_by
  have := Lexeme.length_of_read? _h
  have := (List.dropWhile_sublist isWhite (l := text)).length_le
  rw [_w] at this
  omega

end PocketBasic.Json
