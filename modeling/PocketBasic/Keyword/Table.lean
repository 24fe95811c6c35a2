import PocketBasic.Keyword.Catalog

/-! Keyword tables: the keywords of some of the tiers, found by any spelling. Looking a spelling up
ignores case; matching the front of a text does not, because the machine itself reads capitals
only. -/

namespace PocketBasic

/-- A spelling together with the keyword that it is read as. -/
structure Keyword.Spelling where
  text : List Char
  keyword : Keyword
deriving DecidableEq, Repr

namespace Keyword

def entries (keyword : Keyword) : List Spelling :=
  keyword.spellings.map (⟨·, keyword⟩)

/-- The longest of some spellings, and the first of those that are as long. -/
def Spelling.longest? : List Spelling → Option Spelling
  | [] => none
  | spelling :: others =>
    match longest? others with
    | none => some spelling
    | some other =>
      some (if spelling.text.length < other.text.length then other else spelling)

end Keyword

structure Keyword.Table where
  keywords : List Keyword
  /-- Kept so that the spellings are worked out once. -/
  spellings : List Spelling := keywords.flatMap Keyword.entries
  spellings_eq : spellings = keywords.flatMap Keyword.entries := by rfl

namespace Keyword.Table

/-- The table of some tiers. Their order and repeats do not matter. -/
def ofTiers (tiers : List Tier) : Table where
  keywords := (Tier.all.filter (tiers.contains ·)).flatMap Catalog.ofTier

def full : Table :=
  ofTiers Tier.all

/-- The keyword that a text spells in full, whatever its case. -/
def lookup? (table : Table) (text : List Char) : Option Keyword :=
  let capitals := Text.upper text
  (table.spellings.find? (·.text == capitals)).map (·.keyword)

def longestSpelling (table : Table) : Nat :=
  table.spellings.foldr (fun spelling n => max (Text.byteLength spelling.text) n) 0

/-- The spelling that a text is, letter by letter. -/
def spelling? (table : Table) (text : List Char) : Option Spelling :=
  table.spellings.find? (·.text == text)

/-- The longest spelling of at most `limit` bytes in front of a text. The longer fronts of the text
are looked up before the shorter ones. -/
def matchWithin? (table : Table) (text : List Char) : Nat → Option Spelling
  | 0 => none
  | limit + 1 =>
    match (Text.takeBytes? text (limit + 1)).bind table.spelling? with
    | some spelling => some spelling
    | none => table.matchWithin? text limit

def longestMatch? (table : Table) (text : List Char) : Option Spelling :=
  table.matchWithin? text (min table.longestSpelling (Text.byteLength text))

def sortedSpellings (table : Table) : List (List Char) :=
  (table.spellings.map (·.text)).mergeSort fun a b => !b.lex a fun c d => c.toNat.blt d.toNat

def ofTier (table : Table) (tier : Tier) : List Keyword :=
  table.keywords.filter (·.tier == tier)

def ofKind (table : Table) (kind : Kind) : List Keyword :=
  table.keywords.filter (·.kind == kind)

end Keyword.Table

end PocketBasic
