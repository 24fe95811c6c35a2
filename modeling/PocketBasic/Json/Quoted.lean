/-! Quoted strings of JSON. Writing escapes what JSON forbids raw; reading takes every escape, and
two escapes that write the halves of a surrogate pair stand for one character. A half without its
partner stands for nothing. -/

namespace PocketBasic.Json

def hexValue? (c : Char) : Option Nat :=
  if c.isDigit then some (c.toNat - '0'.toNat)
  else if 'a' ≤ c ∧ c ≤ 'f' then some (c.toNat - 'a'.toNat + 10)
  else if 'A' ≤ c ∧ c ≤ 'F' then some (c.toNat - 'A'.toNat + 10)
  else none

def unit? (a b c d : Char) : Option Nat := do
  return (((← hexValue? a) * 16 + (← hexValue? b)) * 16 + (← hexValue? c)) * 16 + (← hexValue? d)

/-- The character that stands for itself or a control character after a backslash. -/
def unescape? : Char → Option Char
  | '"' => some '"'
  | '\\' => some '\\'
  | '/' => some '/'
  | 'b' => some '\x08'
  | 'f' => some '\x0c'
  | 'n' => some '\n'
  | 'r' => some '\r'
  | 't' => some '\t'
  | _ => none

def isHighSurrogate (unit : Nat) : Bool :=
  0xD800 ≤ unit && unit < 0xDC00

def isLowSurrogate (unit : Nat) : Bool :=
  0xDC00 ≤ unit && unit < 0xE000

def ofSurrogates (high low : Nat) : Char :=
  Char.ofNat (0x10000 + (high - 0xD800) * 0x400 + (low - 0xDC00))

def prepend (c : Char) (read : Option (List Char × List Char)) : Option (List Char × List Char) :=
  read.map fun (chars, rest) => (c :: chars, rest)

/-- The characters up to the closing quote, and what follows it. `high` is the first half of a
surrogate pair whose second half must come next. -/
def readQuoted? (high : Option Nat) : List Char → Option (List Char × List Char)
  | [] => none
  | '\\' :: 'u' :: a :: b :: c :: d :: rest =>
    match high, unit? a b c d with
    | _, none => none
    | some first, some unit =>
      if isLowSurrogate unit then prepend (ofSurrogates first unit) (readQuoted? none rest)
      else none
    | none, some unit =>
      if isHighSurrogate unit then readQuoted? (some unit) rest
      else if isLowSurrogate unit then none
      else prepend (Char.ofNat unit) (readQuoted? none rest)
  | '\\' :: c :: rest =>
    match high, unescape? c with
    | none, some plain => prepend plain (readQuoted? none rest)
    | _, _ => none
  | c :: rest =>
    if high.isSome then none
    else if c = '"' then some ([], rest)
    else if c.toNat < 0x20 then none
    else prepend c (readQuoted? none rest)

/-- How a character is written between quotes. Control characters without a short escape are
written by their code. -/
def escape (c : Char) : List Char :=
  match c with
  | '"' => ['\\', '"']
  | '\\' => ['\\', '\\']
  | '\x08' => ['\\', 'b']
  | '\x0c' => ['\\', 'f']
  | '\n' => ['\\', 'n']
  | '\r' => ['\\', 'r']
  | '\t' => ['\\', 't']
  | _ =>
    if c.toNat < 0x20 then
      ['\\', 'u', '0', '0', Nat.digitChar (c.toNat / 16), Nat.digitChar (c.toNat % 16)]
    else [c]

def quote (text : List Char) : List Char :=
  '"' :: text.flatMap escape ++ ['"']

theorem prepend_eq_some {c : Char} {read : Option (List Char × List Char)}
    {chars rest : List Char} (h : prepend c read = some (chars, rest)) :
    ∃ tail, read = some (tail, rest) := by
  simp only [prepend, Option.map_eq_some_iff, Prod.exists, Prod.mk.injEq] at h
  obtain ⟨tail, _, found, _, rfl⟩ := h
  exact ⟨tail, found⟩

/-- The closing quote at least is taken off the text. -/
theorem length_of_readQuoted? {high : Option Nat} {text chars rest : List Char}
    (h : readQuoted? high text = some (chars, rest)) : rest.length < text.length := by
  fun_induction readQuoted? high text generalizing chars with
  | case1 => cases h
  | case2 => cases h
  | case3 a b c d tail first unit found low ih =>
    obtain ⟨_, read⟩ := prepend_eq_some h
    have := ih read
    simp only [List.length_cons]
    omega
  | case4 => cases h
  | case5 a b c d tail unit found high ih =>
    have := ih h
    simp only [List.length_cons]
    omega
  | case6 => cases h
  | case7 a b c d tail unit found high low ih =>
    obtain ⟨_, read⟩ := prepend_eq_some h
    have := ih read
    simp only [List.length_cons]
    omega
  | case8 c tail plain found notUnit ih =>
    obtain ⟨_, read⟩ := prepend_eq_some h
    have := ih read
    simp only [List.length_cons]
    omega
  | case9 => cases h
  | case10 => cases h
  | case11 =>
    simp only [Option.some.injEq, Prod.mk.injEq] at h
    simp [h.2]
  | case12 => cases h
  | case13 high c tail notUnit notEscape none notQuote notControl ih =>
    obtain ⟨_, read⟩ := prepend_eq_some h
    have := ih read
    simp only [List.length_cons]
    omega

end PocketBasic.Json
