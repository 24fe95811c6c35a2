import PocketBasic.Proofs.Folding.Origin
import PocketBasic.Proofs.Token.Lexemes
import PocketBasic.Proofs.Token.Rules

/-! The tokens of a folded text. Folding leaves nothing to fold: a second fold keeps every character
where it is, and reads it in the mode in which the first one did (`map_mode_foldFrom_kept`). So no
token of a folded text has blanks in its span, and its tokens are those of a scan
(`tokenize_eq_scan`). As tokens say what folding has kept, reading what they say gives the same
tokens again (`tokenize_again`). -/

namespace PocketBasic

namespace Folding

variable {mode : Mode} {c : Char} {text rest : List Char}

theorem foldFrom_cons_of_keeps (keeps : mode.isVerbatim = true ∨ Text.isBlank c = false)
    (offset : Nat) (text : List Char) :
    foldFrom mode offset (c :: text) =
      ⟨c, offset, mode⟩ :: foldFrom (mode.next c text) (offset + c.utf8Size) text := by
  rw [foldFrom, if_pos (by simpa using keeps)]

/-- A text of which everything is kept is led back to its own bytes. -/
theorem origin_foldFrom_of_kept (h : kept mode text [] = text) (offset : Nat) :
    origin (foldFrom mode offset text) = List.range' offset (Text.byteLength text) := by
  induction text generalizing mode offset with
  | nil => rfl
  | cons c text ih =>
    obtain ⟨keeps, hkept⟩ := kept_cons_eq_self h
    rw [List.append_nil] at hkept
    rw [foldFrom_cons_of_keeps keeps, origin_cons, ih hkept, Mark.offsets, Text.byteLength_cons,
      List.range'_append_1]

/-- A fold of what was kept reads it in the same modes. -/
theorem map_mode_foldFrom_kept (mode : Mode) (offset offset' : Nat) (text : List Char) :
    (foldFrom mode offset' (kept mode text [])).map Mark.mode =
      (foldFrom mode offset text).map Mark.mode := by
  induction text generalizing mode offset offset' with
  | nil => rfl
  | cons c text ih =>
    rcases foldFrom_cons_cases mode offset c text with ⟨keeps, heq⟩ | ⟨hm, hc, heq⟩
    · have next : mode.next c (kept (mode.next c text) text []) = mode.next c text :=
        Mode.next_congr (content_kept ..) mode c
      rw [heq, kept_cons_of_keeps keeps, List.append_nil, foldFrom_cons_of_keeps keeps, next,
        List.map_cons, List.map_cons, ih]
    · rw [heq, kept_cons_of_drops hm hc, ih mode (offset + c.utf8Size)]

/-- A text that is kept is marked character by character, so that its marks end where it does. -/
theorem foldFrom_append_of_kept (h : kept mode text rest = text) (offset : Nat) :
    ∃ own, foldFrom mode offset (text ++ rest) =
        own ++ foldFrom (mode.through text rest) (offset + Text.byteLength text) rest ∧
      own.length = text.length ∧
      own.getLast?.elim offset Mark.stop = offset + Text.byteLength text := by
  induction text generalizing mode offset with
  | nil => exact ⟨[], rfl, rfl, rfl⟩
  | cons c text ih =>
    obtain ⟨keeps, hkept⟩ := kept_cons_eq_self h
    obtain ⟨own, heq, hlength, hlast⟩ := ih hkept (offset + c.utf8Size)
    refine ⟨⟨c, offset, mode⟩ :: own, ?_, by rw [List.length_cons, hlength, List.length_cons], ?_⟩
    · rw [List.cons_append, foldFrom_cons_of_keeps keeps, heq, Mode.through_cons,
        Text.byteLength_cons, ← Nat.add_assoc]
      rfl
    · rw [Text.byteLength_cons, ← Nat.add_assoc, ← hlast, List.getLast?_cons]
      cases own.getLast? <;> rfl

end Folding

namespace Token

open Folding

variable {mode : Mode} {table : Keyword.Table} {text : List Char} {lexemes : List Lexeme}

/-- Lexemes that are marked character by character are given contiguous spans. -/
theorem spread_eq_contiguous (h : kept mode (Lexeme.written lexemes) [] = Lexeme.written lexemes)
    (start : Nat) :
    spread start (start + Text.byteLength (Lexeme.written lexemes)) lexemes
      (foldFrom mode start (Lexeme.written lexemes)) = contiguous start lexemes := by
  induction lexemes generalizing mode start with
  | nil => rfl
  | cons lexeme lexemes ih =>
    cases lexemes with
    | nil => simp [spread, contiguous]
    | cons next lexemes =>
      rw [Lexeme.written_cons] at h ⊢
      obtain ⟨hown, hothers⟩ := kept_append_eq_self h
      rw [List.append_nil] at hown hothers
      obtain ⟨own, heq, hlength, hlast⟩ := foldFrom_append_of_kept hown start
      rw [spread_cons_cons, heq, ← hlength, List.take_left, List.drop_left, hlast,
        Text.byteLength_append, ← Nat.add_assoc, ih hothers]
      rfl

/-- Where nothing is folded away, the tokens of a text are those of a scan. -/
theorem tokenize_eq_scan (h : Folding.text (fold text) = text) :
    tokenize table text = scan table text := by
  have hwritten : Lexeme.written (Lexeme.scan table text) = text :=
    Lexeme.flatMap_text_scanFrom table .lineStart text
  rw [tokenize, h, scan]
  split
  next hnil =>
    rw [hnil, Lexeme.written_nil] at hwritten
    rw [if_pos hwritten.symm, hnil]
    rfl
  next =>
    have hkept : kept .code (Lexeme.written (Lexeme.scan table text)) [] =
        Lexeme.written (Lexeme.scan table text) := by
      rw [hwritten, ← text_fold, h]
    have hspread := spread_eq_contiguous hkept 0
    rwa [hwritten, Nat.zero_add] at hspread

/-- Tokens say what folding has kept of a text, if there is any of it. -/
theorem flatMap_text_tokenize (h : Lexeme.ofText table text ≠ []) :
    (tokenize table text).flatMap (·.text) = Folding.text (fold text) := by
  have hwritten : Lexeme.written (Lexeme.ofText table text) = Folding.text (fold text) :=
    Lexeme.flatMap_text_scanFrom table .lineStart _
  rw [← hwritten, ← map_toLexeme_tokenize h, Lexeme.written, List.flatMap_map]

/-- A text of which nothing is kept is one token, which says all of it. -/
theorem tokenize_eq_contiguous (h : Lexeme.ofText table text = []) (htext : text ≠ []) :
    tokenize table text = contiguous 0 [⟨.blank, text⟩] := by
  rw [Lexeme.ofText] at h
  rw [tokenize, h, contiguous, contiguous, Nat.zero_add]
  exact if_neg htext

/-- Folding a folded text changes nothing: every character is kept, at the offset at which it stands
and in the mode in which it was read before. Tokens that are written one after the other are read as
tokens of the same kinds and texts, and their spans are those of their texts. -/
theorem tokenize_again (table : Keyword.Table) (text : List Char) :
    let folded := Folding.text (fold text)
    let tokens := tokenize table text
    let again := tokenize table (tokens.flatMap (·.text))
    (Folding.text (fold folded) = folded ∧
      origin (fold folded) = List.range (Text.byteLength folded) ∧
      (fold folded).map Mark.mode = (fold text).map Mark.mode) ∧
    again.map (·.toLexeme) = tokens.map (·.toLexeme) ∧
    again = contiguous 0 (tokens.map (·.toLexeme)) := by
  intro folded tokens again
  have hfolded : folded = kept .code text [] := text_fold text
  have hkept : kept .code folded [] = folded := by
    rw [hfolded]
    exact (kept_kept .code text []).1
  have hagain : Folding.text (fold folded) = folded := (text_fold folded).trans hkept
  have hspans : again = contiguous 0 (tokens.map (·.toLexeme)) := by
    by_cases hnil : Lexeme.ofText table text = []
    · -- the one token of a blank text says what folding drops
      by_cases htext : text = []
      · subst htext
        simp [again, tokens, contiguous]
      · have htokens : tokens = contiguous 0 [⟨.blank, text⟩] := tokenize_eq_contiguous hnil htext
        have hsays : tokens.flatMap (·.text) = text := by
          rw [htokens]
          exact List.append_nil text
        calc again = tokens := congrArg (tokenize table) hsays
          _ = contiguous 0 (tokens.map (·.toLexeme)) := by rw [htokens, map_toLexeme_contiguous]
    · calc again = tokenize table folded := congrArg (tokenize table) (flatMap_text_tokenize hnil)
        _ = contiguous 0 (Lexeme.scan table folded) := tokenize_eq_scan hagain
        _ = contiguous 0 (tokens.map (·.toLexeme)) := by rw [map_toLexeme_tokenize hnil]; rfl
  refine ⟨⟨hagain, ?_, ?_⟩, ?_, hspans⟩
  · rw [List.range_eq_range']
    exact origin_foldFrom_of_kept hkept 0
  · rw [hfolded]
    exact map_mode_foldFrom_kept .code 0 0 text
  · rw [hspans, map_toLexeme_contiguous]

end Token

end PocketBasic
