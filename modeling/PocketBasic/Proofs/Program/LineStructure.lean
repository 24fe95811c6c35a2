import PocketBasic.Proofs.Listing.CompactLine
import PocketBasic.Proofs.Program.Lines

/-! The line structure of a program. A text consists of its lines and of the terminators between
them (`exists_separated`). No other lines do (`Separated.cutLines_eq`), and the first terminator is
the line ending that is found (`Separated.detect?_eq`). Rewriting the lines of a program keeps them
apart, so a program is listed and compacted line by line. -/

namespace PocketBasic.Program

open Lexeme (Inline)

/-- The text is the lines, in their order, with the line endings between them. A carriage return
that a line feed follows is one terminator with it. -/
inductive Separated : List (List Char) → List LineEnding → List Char → Prop where
  | last {line : List Char} (h : Inline line) : Separated [line] [] line
  | cons {line rest : List Char} {lines : List (List Char)} {ending : LineEnding}
      {endings : List LineEnding} (h : Inline line)
      (hending : ending = .cr → rest.head? ≠ some '\n') (others : Separated lines endings rest) :
      Separated (line :: lines) (ending :: endings) (line ++ (ending.text ++ rest))

variable {lines : List (List Char)} {endings : List LineEnding} {text : List Char}

namespace Separated

theorem inline (h : Separated lines endings text) : ∀ line ∈ lines, Inline line := by
  induction h with
  | last h => exact fun line hmem => List.mem_singleton.mp hmem ▸ h
  | cons h _ _ ih => exact List.forall_mem_cons.mpr ⟨h, ih⟩

/-- A text is cut into the lines that it consists of. -/
theorem cutLines_eq (h : Separated lines endings text) : cutLines text = lines := by
  induction h with
  | last h => exact cutLines_of_inline h
  | cons h hending _ ih => rw [cutLines_append h _ hending, ih]

/-- The line ending of a text is its first terminator. -/
theorem detect?_eq (h : Separated lines endings text) :
    LineEnding.detect? text = endings.head? := by
  cases h with
  | last h =>
    rw [← List.append_nil text, detect?_of_inline h]
    rfl
  | cons h hending => rw [detect?_of_inline h, detect?_ending hending, List.head?_cons]

end Separated

/-- Every text consists of the lines that it is cut into. -/
theorem exists_separated (text : List Char) :
    ∃ endings, Separated (cutLines text) endings text := by
  induction hlength : text.length using Nat.strongRecOn generalizing text with
  | ind length ih =>
  rcases exists_line text with h | ⟨line, ending, rest, rfl, h, hending⟩
  · exact ⟨[], cutLines_of_inline h ▸ .last h⟩
  · have hpos : 0 < ending.text.length := by cases ending <;> simp [LineEnding.text]
    simp only [List.length_append] at hlength
    obtain ⟨endings, others⟩ := ih rest.length (by omega) rest rfl
    exact ⟨ending :: endings, cutLines_append h ending hending ▸ .cons h hending others⟩

/-- Rewriting the lines of a text and cutting the result gives the rewritten lines. -/
theorem cutLines_join_map {f : List Char → List Char}
    (hf : ∀ line, Inline line → Inline (f line)) (text : List Char) (fallback : LineEnding) :
    cutLines ((split text fallback).map f).join =
      (cutLines text).map fun line => if Text.isBlankLine line then line else f line :=
  congrArg lines (split_join_map_split (fun {line} => hf line) text fallback)

/-- A text consists of the lines that it is split into, with terminators between them, the first of
which is the line ending that is found. Lines that are rewritten and joined with any line ending
are split into the rewritten lines again. Listing a line and compacting it are ways to rewrite it,
so a program is listed and compacted line by line. -/
theorem split_lines (tiers : List Tier) (text : List Char) (fallback : LineEnding) :
    let table := Keyword.Table.ofTiers tiers
    let lines := (split text fallback).lines
    (lines ≠ [] ∧ (∀ line ∈ lines, Inline line) ∧
      ∃ endings, Separated lines endings text ∧ LineEnding.detect? text = endings.head?) ∧
    (∀ (ending other : LineEnding) (f : List Char → List Char),
      (∀ line, Inline line → Text.isBlankLine line = false → Inline (f line)) →
      let again := split (({ split text fallback with ending := ending }).map f).join other
      again.lines = lines.map (fun line => if Text.isBlankLine line then line else f line) ∧
        (2 ≤ lines.length → again.ending = ending)) ∧
    (∀ line, Inline line → Inline (reformatLine table line) ∧ Inline (compactLine table line)) ∧
    cutLines (reformat table fallback text) =
      lines.map (fun line => if Text.isBlankLine line then line else reformatLine table line) ∧
    cutLines (compact table fallback text) =
      lines.map (fun line => if Text.isBlankLine line then line else compactLine table line) := by
  intro table lines
  have terse : table.Terse := Keyword.Table.terse_ofTiers tiers
  have hlisted : ∀ line, Inline line → Inline (reformatLine table line) := fun _ =>
    inline_reformatLine terse.toLawful
  have hcompact : ∀ line, Inline line → Inline (compactLine table line) := fun _ =>
    inline_compactLine terse
  have hne : lines ≠ [] := cutLines_ne_nil text
  obtain ⟨endings, separated⟩ := exists_separated text
  refine ⟨⟨hne, separated.inline, endings, separated, separated.detect?_eq⟩, ?_,
    fun line h => ⟨hlisted line h, hcompact line h⟩, cutLines_join_map hlisted text fallback,
    cutLines_join_map hcompact text fallback⟩
  intro ending other f hf again
  let program : Program := { split text fallback with ending := ending }
  have hlines : ∀ line ∈ program.lines, Inline line := separated.inline
  have hagain : again = _ := split_join_map hlines hne
    (fun line hline => hf line (hlines line hline)) other
  rw [hagain]
  exact ⟨rfl, fun hlength => if_neg (Nat.not_le.mpr hlength)⟩

/-- Lines that are doubled stay apart, whatever terminators stood between them. -/
theorem split_lines_doubled :
    let text := ['A', '\r', '\n', ' ', '\r', 'B', '\n']
    let double (line : List Char) := line ++ line
    (∀ line, Inline line → Text.isBlankLine line = false → Inline (double line)) ∧
      split (({ split text .lf with ending := .cr }).map double).join .lf =
        ⟨[['A', 'A'], [' '], ['B', 'B'], []], .cr⟩ := by
  intro text double
  have hdouble : ∀ line, Inline line → Text.isBlankLine line = false → Inline (double line) :=
    fun _ h _ => List.forall_mem_append.mpr ⟨h, h⟩
  obtain ⟨hlines, hending⟩ := (split_lines [.core] text .lf).2.1 .cr .lf double hdouble
  refine ⟨hdouble, ?_⟩
  generalize split _ LineEnding.lf = again at hlines hending ⊢
  cases again
  cases hlines
  cases hending (by decide)
  rfl

end PocketBasic.Program
