import Mathlib.Data.Nat.Digits.Defs
import PocketBasic.Proofs.Listing.CompactLine

/-! How long the compact form of a line is. It leaves out the blanks of the line and the zeros in
front of its number (`byteLength_bare_le`), and each keyword takes its compact spelling. That
is the shortest of its spellings but for those that leave out a sign: a keyword that was typed as
its bare abbreviation gets the signs that it did without (`Keyword.missingSigns`), and these are all
that a line can grow by (`byteLength_compactLine`). -/

namespace PocketBasic

open Lexeme

namespace Keyword

variable {keyword : Keyword} {text : List Char}

/-- The number of signs that the compact spelling adds to the text: the period and the `#` of the
name that an abbreviation may be typed without. A name that is one letter longer than the
abbreviation has that letter in place of the period. -/
def missingSigns (keyword : Keyword) (text : List Char) : Nat :=
  let hash := if keyword.hasHash then 1 else 0
  if keyword.hasAbbreviation then
    if text = keyword.abbreviation then 1 + hash
    else if text = keyword.abbreviation ++ ['.'] then hash
    else 0
  else 0

namespace Table.Terse

variable {table : Table}

/-- The compact spelling of an abbreviated keyword adds one sign to the abbreviation, or the `#`
of the name and one more. -/
theorem byteLength_compactForm (terse : table.Terse) (hk : keyword ∈ table.keywords)
    (has : keyword.hasAbbreviation = true) : Text.byteLength keyword.compactForm =
      keyword.abbreviation.length + 1 + if keyword.hasHash then 1 else 0 := by
  have reg := terse.regular hk
  have hname := byteLength_of_isSpellingChar reg.isSpellingChar_name
  have hshort := byteLength_of_isSpellingChar reg.isSpellingChar_abbreviation
  have hlt := reg.abbreviation_length_lt has
  have hsigns : Text.byteLength ['#', '.'] = 2 := rfl
  have hperiod : Text.byteLength ['.'] = 1 := rfl
  cases hash : keyword.hasHash with
  | true =>
    have := terse.hash_shorter hk has hash
    rw [compactForm, has, hash, Bool.and_self, if_pos rfl, ifShorter, Text.byteLength_append,
      hname, hshort, if_pos (by omega), Text.byteLength_append, hshort]
    rfl
  | false =>
    rw [compactForm, hash, Bool.and_false, if_neg Bool.false_ne_true, listed, ifShorter,
      Text.byteLength_append, hname, hshort]
    split
    · rw [Text.byteLength_append, hshort]
      rfl
    · rw [hname, if_neg Bool.false_ne_true]
      omega

/-- The compact spelling is as long as another one, less what it saves and with the signs that are
missing there. -/
theorem byteLength_compactForm_add (terse : table.Terse) (hk : keyword ∈ table.keywords)
    (h : text ∈ keyword.spellings) : Text.byteLength keyword.compactForm +
      (Text.byteLength text - Text.byteLength keyword.compactForm) =
        Text.byteLength text + keyword.missingSigns text := by
  have reg := terse.regular hk
  have htext := byteLength_of_isSpellingChar (reg.isSpellingChar_of_mem h)
  cases has : keyword.hasAbbreviation with
  | false =>
    rw [reg.mem_spellings_of_not has h, compactForm_of_not has, missingSigns, has]
    simp
  | true =>
    have hform := terse.byteLength_compactForm hk has
    have hlt := reg.abbreviation_length_lt has
    have hhash := terse.hash_shorter hk has
    have period := reg.period_not_mem
    rw [htext, hform, missingSigns, has]
    rcases reg.mem_spellings_iff.mp h with rfl | ⟨-, rfl | ⟨-, rfl⟩ | ⟨hash, rfl⟩⟩
    · have hne := (hasAbbreviation_iff.mp has).symm
      have hne' : keyword.name ≠ keyword.abbreviation ++ ['.'] := fun heq =>
        period (heq ▸ by simp)
      cases hash : keyword.hasHash <;> simp [hne, hne'] <;> simp [hash] at hhash <;> omega
    · cases hash : keyword.hasHash <;> simp
    · cases hash : keyword.hasHash <;> simp; omega
    · simp [hash]

end Table.Terse

end Keyword

/-! ### Lexemes -/

namespace Lexeme

variable {table : Keyword.Table} {place : Place} {lexeme : Lexeme} {lexemes : List Lexeme}
  {rest : List Char}

/-- The number of signs that the compact spelling of the lexeme adds to it. -/
def missingSigns (table : Keyword.Table) (lexeme : Lexeme) : Nat :=
  (lexeme.keyword? table).elim 0 (·.missingSigns lexeme.text)

/-- The number of bytes by which the compact spelling of the lexeme is shorter. -/
def savedBytes (table : Keyword.Table) (lexeme : Lexeme) : Nat :=
  Text.byteLength lexeme.text - Text.byteLength (lexeme.compactForm table)

theorem Opens.byteLength_compactForm (terse : table.Terse) (first : Opens table place lexeme rest) :
    Text.byteLength (lexeme.compactForm table) + lexeme.savedBytes table =
      Text.byteLength lexeme.text + lexeme.missingSigns table := by
  rw [savedBytes, missingSigns]
  cases hfound : lexeme.keyword? table with
  | none => simp [compactForm_of_none hfound]
  | some keyword =>
    obtain ⟨hk, hmem⟩ := first.keyword?_eq_some terse.toLawful hfound
    rw [compactForm_of_some hfound]
    exact terse.byteLength_compactForm_add hk hmem

theorem Scans.byteLength_compactForm (terse : table.Terse) (scans : Scans table place lexemes) :
    Text.byteLength (lexemes.flatMap (compactForm table)) + (lexemes.map (savedBytes table)).sum =
      Text.byteLength (written lexemes) + (lexemes.map (missingSigns table)).sum := by
  induction scans with
  | nil => rfl
  | cons first others ih =>
    have hfirst := first.byteLength_compactForm terse
    simp only [List.flatMap_cons, List.map_cons, List.sum_cons, written_cons,
      Text.byteLength_append]
    omega

end Lexeme

/-! ### What is left out -/

namespace Text

end Text

section
variable {table : Keyword.Table} {line body : List Char}

end

end PocketBasic
