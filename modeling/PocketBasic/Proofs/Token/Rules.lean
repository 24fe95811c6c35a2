import PocketBasic.Proofs.Lexeme.Rules
import PocketBasic.Proofs.Token.Literals

/-! The tokens of a scan. The spans of a scan are those of its lexemes, so a token can be checked
against the text without the tokens around it but the one before (`Fits`). Spans that tile the text
and fit it one by one are the scan of it, and no other spans are (`scan_eq_iff`). -/

namespace PocketBasic

namespace Text

/-- Two cuts of a text at the same offset are one. -/
theorem append_inj_of_byteLength_eq {a b a' b' : List Char} (h : a ++ b = a' ++ b')
    (hlength : byteLength a = byteLength a') : a = a' ∧ b = b' := by
  rcases List.append_eq_append_iff.mp h with ⟨between, rfl, rfl⟩ | ⟨between, rfl, rfl⟩
  all_goals
    cases between with
    | nil => simp
    | cons c between =>
      have := c.utf8Size_pos
      rw [byteLength_append, byteLength_cons] at hlength
      omega

end Text

namespace Token

open Lexeme

/-- The token says what stands in its span, and obeys its rule after the token `previous`. -/
def Fits (table : Keyword.Table) (text : List Char) (previous : Option Token) (token : Token) :
    Prop :=
  ∃ before after, text = before ++ token.text ++ after ∧ token.start = Text.byteLength before ∧
    token.stop = Text.byteLength (before ++ token.text) ∧
    Rule table before (previous.map (·.toLexeme)) token.toLexeme after

variable {table : Keyword.Table} {start : Nat} {token : Token} {tokens front back : List Token}
  {lexemes : List Lexeme} {text done rest : List Char}

theorem map_toLexeme_contiguous (start : Nat) (lexemes : List Lexeme) :
    (contiguous start lexemes).map (·.toLexeme) = lexemes := by
  induction lexemes generalizing start with
  | nil => rfl
  | cons first lexemes ih => exact congrArg (first :: ·) (ih _)

/-- Each span starts where the lexemes before it end. -/
theorem span_of_contiguous_eq (h : contiguous start lexemes = front ++ token :: back) :
    token.start = start + Text.byteLength (written (front.map (·.toLexeme))) ∧
      token.stop = token.start + Text.byteLength token.text := by
  induction front generalizing start lexemes with
  | nil =>
    cases lexemes with
    | nil => contradiction
    | cons first lexemes =>
      obtain ⟨rfl, -⟩ := List.cons.inj h
      exact ⟨rfl, rfl⟩
  | cons other front ih =>
    cases lexemes with
    | nil => contradiction
    | cons first lexemes =>
      obtain ⟨rfl, htail⟩ := List.cons.inj h
      obtain ⟨hstart, hstop⟩ := ih htail
      refine ⟨?_, hstop⟩
      rw [hstart, List.map_cons, written_cons, Text.byteLength_append, Nat.add_assoc]

/-- Tokens that tile what is left of a text and say what stands in their spans are contiguous, and
they say all of it. -/
theorem eq_contiguous_of_tiles
    (htiles : Tiles (Text.byteLength done) tokens (Text.byteLength (done ++ rest)))
    (hspans : ∀ token ∈ tokens, ∃ before after, done ++ rest = before ++ token.text ++ after ∧
      token.start = Text.byteLength before ∧
      token.stop = Text.byteLength (before ++ token.text)) :
    contiguous (Text.byteLength done) (tokens.map (·.toLexeme)) = tokens ∧
      written (tokens.map (·.toLexeme)) = rest := by
  induction tokens generalizing done rest with
  | nil =>
    have hcut : done ++ rest = (done ++ rest) ++ [] := (List.append_nil _).symm
    obtain ⟨-, rfl⟩ := Text.append_inj_of_byteLength_eq hcut htiles
    exact ⟨rfl, rfl⟩
  | cons token tokens ih =>
    obtain ⟨hstart, -, htiles⟩ := htiles
    obtain ⟨before, after, htext, hbefore, hstop⟩ := hspans token List.mem_cons_self
    rw [List.append_assoc] at htext
    obtain ⟨rfl, rfl⟩ := Text.append_inj_of_byteLength_eq htext (hstart.symm.trans hbefore)
    rw [hstop, ← List.append_assoc] at htiles
    obtain ⟨hcontiguous, hwritten⟩ := ih htiles fun other hmem => by
      rw [List.append_assoc]
      exact hspans other (List.mem_cons_of_mem _ hmem)
    refine ⟨?_, by rw [List.map_cons, written_cons, hwritten]⟩
    rw [Text.byteLength_append, ← hstart] at hcontiguous hstop
    rw [List.map_cons, ← hstart, contiguous, hcontiguous, ← hstop]

/-- A token of contiguous ones fits their text if and only if its lexeme obeys its rule. -/
theorem fits_iff (h : contiguous 0 lexemes = front ++ token :: back) :
    Fits table (written lexemes) front.getLast? token ↔
      Rule table (written (front.map (·.toLexeme))) (front.map (·.toLexeme)).getLast?
        token.toLexeme (written (back.map (·.toLexeme))) := by
  obtain ⟨hstart, hstop⟩ := span_of_contiguous_eq h
  rw [Nat.zero_add] at hstart
  have htext : written lexemes =
      written (front.map (·.toLexeme)) ++ (token.text ++ written (back.map (·.toLexeme))) := by
    rw [← map_toLexeme_contiguous 0 lexemes, h]
    simp
  rw [List.getLast?_map]
  constructor
  · rintro ⟨before, after, hcut, hbefore, -, hrule⟩
    rw [htext, List.append_assoc] at hcut
    obtain ⟨rfl, hrest⟩ := Text.append_inj_of_byteLength_eq hcut (hstart.symm.trans hbefore)
    rwa [List.append_cancel_left hrest]
  · intro hrule
    refine ⟨_, _, ?_, hstart, ?_, hrule⟩
    · rw [htext, List.append_assoc]
    · rw [hstop, hstart, Text.byteLength_append]

/-- Contiguous tokens fit their text if and only if their lexemes obey the rules. -/
theorem obeys_iff_fits :
    Obeys table [] none lexemes ↔
      ∀ front token back, contiguous 0 lexemes = front ++ token :: back →
        Fits table (written lexemes) front.getLast? token := by
  constructor
  · intro obeys front token back h
    have hlexemes : lexemes =
        front.map (·.toLexeme) ++ token.toLexeme :: back.map (·.toLexeme) := by
      rw [← map_toLexeme_contiguous 0 lexemes, h]
      simp
    have hrule := obeys _ _ _ hlexemes
    rw [List.nil_append, Option.or_none] at hrule
    exact (fits_iff h).mpr hrule
  · intro fits front lexeme back h
    rw [← map_toLexeme_contiguous 0 lexemes] at h
    obtain ⟨front, others, hcut, rfl, hothers⟩ := List.map_eq_append_iff.mp h
    obtain ⟨token, back, rfl, rfl, rfl⟩ := List.map_eq_cons_iff.mp hothers
    rw [List.nil_append, Option.or_none]
    exact (fits_iff hcut).mp (fits front token back hcut)

/-- A scan is sound and complete for the rules of the lexical grammar: it gives the tokens that
tile the text and obey the rules one by one, and these tokens are the only ones. -/
theorem scan_eq_iff (tiers : List Tier) (text : List Char) (tokens : List Token) :
    let table := Keyword.Table.ofTiers tiers
    scan table text = tokens ↔
      Tiles 0 tokens (Text.byteLength text) ∧
        ∀ front token back, tokens = front ++ token :: back →
          Fits table text front.getLast? token := by
  intro table
  have law : table.Lawful := Keyword.Table.lawful_ofTiers tiers
  -- tokens that the rules allow are contiguous, so it is enough to compare the lexemes
  have hscan {lexemes : List Lexeme} :
      Lexeme.scan table text = lexemes ↔ Obeys table [] none lexemes ∧ written lexemes = text := by
    rw [← scans_iff_obeys law follows_start]
    exact scanFrom_eq_iff law
  constructor
  · intro h
    obtain ⟨obeys, hwritten⟩ := hscan.mp rfl
    have hne : ∀ lexeme ∈ Lexeme.scan table text, lexeme.text ≠ [] :=
      fun _ hmem => text_ne_nil_of_mem_scanFrom hmem
    have htiles := tiles_contiguous hne 0
    have fits := obeys_iff_fits.mp obeys
    rw [hwritten] at htiles fits
    rw [Nat.zero_add] at htiles
    rw [← h]
    exact ⟨htiles, fits⟩
  · rintro ⟨htiles, fits⟩
    have hstart : Tiles (Text.byteLength []) tokens (Text.byteLength ([] ++ text)) := htiles
    obtain ⟨hcontiguous, hwritten⟩ := eq_contiguous_of_tiles hstart fun token hmem => by
      obtain ⟨front, back, rfl⟩ := List.append_of_mem hmem
      obtain ⟨before, after, htext, hspan, hstop, -⟩ := fits front token back rfl
      exact ⟨before, after, htext, hspan, hstop⟩
    rw [Text.byteLength_nil] at hcontiguous
    have obeys : Obeys table [] none (tokens.map (·.toLexeme)) := by
      rw [obeys_iff_fits, hcontiguous, hwritten]
      exact fits
    rw [scan, hscan.mpr ⟨obeys, hwritten⟩, hcontiguous]

end Token

end PocketBasic
