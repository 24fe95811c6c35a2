import PocketBasic.Proofs.Listing.CompactLine

/-! What the listing of a line and its compact form have in common. Both depend on what folding
keeps of the line and on nothing else (`reformatLine_congr`, `compactLine_congr`), so blanks outside
of strings and comments make no difference, wherever they stand. Both carry the number of the line,
and none if the line has none. -/

namespace PocketBasic

open Lexeme

/-! ### Folded lines -/

theorem LineNumber.next_of_isDigit {c : Char} (h : c.isDigit = true) (rest : List Char) :
    Folding.Mode.code.next c rest = .code := by
  obtain ⟨hplain, -, hne⟩ := isPlain_of_isNumeralChar (c := c) (by simp [isNumeralChar, h])
  rw [next_of_isPlain hplain, if_neg fun hrem => hne hrem.1]

/-- A folded line starts with the digits of the line, and goes on with what follows these. -/
theorem LineNumber.kept_eq_leadingDigits (line : List Char) :
    Folding.kept .code line [] =
      (leadingDigits line).1 ++ Folding.kept .code (leadingDigits line).2 [] := by
  induction line with
  | nil => rfl
  | cons c rest ih =>
    rcases leadingDigits_cons_cases c rest with ⟨hdigit, heq⟩ | ⟨hblank, -, heq⟩ | ⟨-, -, heq⟩
    · rw [heq, Folding.kept_cons_of_keeps (.inr (not_blank_of_isDigit hdigit)),
        next_of_isDigit hdigit, ih, List.cons_append]
    · rw [heq, Folding.kept_cons_of_drops rfl hblank, ih]
    · rw [heq, List.nil_append]

/-- Lines that are folded to the same text have the same number, and their bodies are folded to
the same text. -/
theorem LineNumber.split_congr {a b : List Char}
    (h : Folding.kept .code a [] = Folding.kept .code b []) :
    (split a).1 = (split b).1 ∧
      Folding.kept .code (split a).2 [] = Folding.kept .code (split b).2 [] := by
  have hdigits : (leadingDigits a).1 = (leadingDigits b).1 := by
    rw [leadingDigits_fst, leadingDigits_fst, ← Folding.content_kept .code a [], h,
      Folding.content_kept]
  rw [split_eq, split_eq, ← leadingDigits_fst, ← leadingDigits_fst, hdigits]
  cases parse (leadingDigits b).1 with
  | error => exact ⟨rfl, h⟩
  | ok number =>
    rw [kept_eq_leadingDigits a, kept_eq_leadingDigits b, hdigits] at h
    exact ⟨rfl, List.append_cancel_left h⟩

section
variable {table : Keyword.Table} {a b : List Char}

theorem ofText_congr (h : Folding.kept .code a [] = Folding.kept .code b []) :
    ofText table a = ofText table b := by
  rw [ofText, ofText, Folding.text_fold, Folding.text_fold, h]

theorem compactLine_congr (h : Folding.kept .code a [] = Folding.kept .code b []) :
    compactLine table a = compactLine table b := by
  obtain ⟨hnumber, hbody⟩ := LineNumber.split_congr h
  rw [compactLine_eq (Prod.eta (LineNumber.split a)).symm,
    compactLine_eq (Prod.eta (LineNumber.split b)).symm, hnumber, ofText_congr hbody]

theorem reformatLine_congr (law : table.Lawful) (ha : Inline a) (hb : Inline b)
    (h : Folding.kept .code a [] = Folding.kept .code b []) :
    reformatLine table a = reformatLine table b := by
  obtain ⟨hnumber, hbody⟩ := LineNumber.split_congr h
  rw [reformatLine_of_split law ha (Prod.eta (LineNumber.split a)).symm,
    reformatLine_of_split law hb (Prod.eta (LineNumber.split b)).symm, hnumber,
    ofText_congr hbody]

end

/-- Blanks that stand outside of strings and comments make no difference: the text is folded to the
same characters, listed in the same way, and has the same compact form. -/
theorem forms_append_blanks (tiers : List Tier) {a blanks b : List Char} (ha : Inline a)
    (hb : Inline b) (hblanks : ∀ c ∈ blanks, Text.isBlank c = true)
    (hmode : (Folding.Mode.code.through a []).isVerbatim = false) :
    let table := Keyword.Table.ofTiers tiers
    Folding.text (Folding.fold (a ++ blanks ++ b)) = Folding.text (Folding.fold (a ++ b)) ∧
      reformatLine table (a ++ blanks ++ b) = reformatLine table (a ++ b) ∧
      compactLine table (a ++ blanks ++ b) = compactLine table (a ++ b) := by
  intro table
  have hline : Inline (a ++ b) := List.forall_mem_append.mpr ⟨ha, hb⟩
  have hspaced : Inline (a ++ blanks ++ b) :=
    List.forall_mem_append.mpr ⟨List.forall_mem_append.mpr ⟨ha, inline_of_blank hblanks⟩, hb⟩
  have hkept : Folding.kept .code (a ++ blanks ++ b) [] = Folding.kept .code (a ++ b) [] := by
    refine Folding.kept_append_blanks hblanks ?_
    rw [Folding.Mode.isVerbatim_through, hmode]
  refine ⟨?_, ?_, compactLine_congr hkept⟩
  · rw [Folding.text_fold, Folding.text_fold, hkept]
  · exact reformatLine_congr (Keyword.Table.lawful_ofTiers tiers) hspaced hline hkept

/-- Blanks may stand between the letters of a `REM` and between the digits of a number. -/
theorem forms_append_blanks_rem :
    let table := Keyword.Table.ofTiers [.core]
    let a := ['1', ' ', '0', 'R', 'E']
    let b := ['M', ' ', 'x']
    (Inline a ∧ Inline b ∧ (Folding.Mode.code.through a []).isVerbatim = false) ∧
      Folding.text (Folding.fold (a ++ [' ', '\t'] ++ b)) = Folding.text (Folding.fold (a ++ b)) ∧
      reformatLine table (a ++ [' ', '\t'] ++ b) = reformatLine table (a ++ b) ∧
      compactLine table (a ++ [' ', '\t'] ++ b) = compactLine table (a ++ b) := by
  intro table a b
  have ha : Inline a := by decide
  have hb : Inline b := by decide
  have hmode : (Folding.Mode.code.through a []).isVerbatim = false := rfl
  exact ⟨⟨ha, hb, hmode⟩, forms_append_blanks [.core] ha hb (by decide) hmode⟩

/-! ### Numbers -/

/-- Both forms of a line carry its number. It is the one that the digits in front of the line write,
blanks and leading zeros apart, and there is none if these write no number from 1 to 65535. -/
theorem split_forms (tiers : List Tier) {line : List Char} (h : Inline line) :
    let table := Keyword.Table.ofTiers tiers
    let digits := (Text.content line).takeWhile Char.isDigit
    (LineNumber.split (reformatLine table line)).1 = (LineNumber.split line).1 ∧
      (LineNumber.split (compactLine table line)).1 = (LineNumber.split line).1 ∧
      (∀ number, (LineNumber.split line).1 = some number ↔
        digits ≠ [] ∧ Text.decimalValue digits = number.value) ∧
      ((LineNumber.split line).1 = none ↔
        digits = [] ∨ Text.decimalValue digits = 0 ∨ 65535 < Text.decimalValue digits) := by
  intro table digits
  have terse : table.Terse := Keyword.Table.terse_ofTiers tiers
  refine ⟨?_, ?_, fun number => LineNumber.split_fst_eq_some_iff, LineNumber.split_fst_eq_none_iff⟩
  · obtain ⟨typed, htyped, -⟩ := LineNumber.split_trim (Prod.eta (LineNumber.split line)).symm
    obtain ⟨-, blanks, -, hlisting⟩ := split_reformatLine terse.toLawful h htyped
    rw [hlisting]
  · rw [split_compactLine terse]

/-- `0 010 P.` is line 10, and `0 P.` and `6 5536 P.` have no number. -/
theorem split_forms_spaced :
    let table := Keyword.Table.ofTiers [.core]
    let spaced := ['0', ' ', '0', '1', '0', ' ', 'P', '.']
    let zero := ['0', ' ', 'P', '.']
    let large := ['6', ' ', '5', '5', '3', '6', ' ', 'P', '.']
    (Inline spaced ∧ Inline zero ∧ Inline large) ∧
      (LineNumber.split (reformatLine table spaced)).1.map (·.value) = some 10 ∧
      (LineNumber.split (compactLine table spaced)).1.map (·.value) = some 10 ∧
      (LineNumber.split (reformatLine table zero)).1 = none ∧
      (LineNumber.split (compactLine table large)).1 = none := by
  intro table spaced zero large
  have hspaced : Inline spaced := by decide
  have hzero : Inline zero := by decide
  have hlarge : Inline large := by decide
  obtain ⟨hlisted, hcompact, hsome, -⟩ := split_forms [.core] hspaced
  obtain ⟨hlistedZero, -, -, hnone⟩ := split_forms [.core] hzero
  obtain ⟨-, hcompactLarge, -, hnoneLarge⟩ := split_forms [.core] hlarge
  have hten := (hsome ⟨10, by decide, by decide⟩).mpr (by decide)
  refine ⟨⟨hspaced, hzero, hlarge⟩, ?_, ?_, ?_, ?_⟩
  · rw [hlisted, hten, Option.map_some]
  · rw [hcompact, hten, Option.map_some]
  · exact hlistedZero.trans (hnone.mpr (by decide))
  · exact hcompactLarge.trans (hnoneLarge.mpr (by decide))

end PocketBasic
