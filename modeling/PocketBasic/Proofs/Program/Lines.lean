import PocketBasic.Program
import PocketBasic.Proofs.Lexeme.Runs

/-! Lines of a program. Lines without terminators that are joined are cut into the same lines again
(`cutLines_intercalate`), and the line ending is found again, unless there is one line only
(`split_join`). A program whose lines were rewritten is therefore split into the rewritten lines
(`split_join_map`), and rewriting it again is rewriting each of them again
(`join_map_again_iff`). -/

namespace PocketBasic.Program

open Lexeme (Inline inline_nil inline_cons)

variable {line rest text : List Char} {lines : List (List Char)}

/-! ### Cutting lines -/

theorem isTerminator_eq_false {c : Char} (hcr : c ≠ '\r') (hlf : c ≠ '\n') :
    isTerminator c = false := by
  rw [Bool.eq_false_iff, Ne, isTerminator]
  simpa using ⟨hcr, hlf⟩

theorem cutLines_ne_nil (text : List Char) : cutLines text ≠ [] := by
  fun_cases cutLines text with
  | case5 =>
    rw [extendFirst.eq_def]
    split <;> simp
  | _ => simp

theorem cutLines_cons_of_not_terminator {c : Char} (h : isTerminator c = false)
    (text : List Char) : cutLines (c :: text) = extendFirst c (cutLines text) := by
  have hcr : c ≠ '\r' := by rintro rfl; contradiction
  have hlf : c ≠ '\n' := by rintro rfl; contradiction
  rw [cutLines]
  · exact fun _ h => absurd h hcr
  · exact hcr
  · exact hlf

theorem cutLines_of_inline (h : Inline line) : cutLines line = [line] := by
  induction line with
  | nil => rfl
  | cons c line ih =>
    rw [cutLines_cons_of_not_terminator (h c List.mem_cons_self),
      ih fun d hd => h d (List.mem_cons_of_mem _ hd)]
    rfl

/-- A terminator ends a line. -/
theorem cutLines_append (h : Inline line) (ending : LineEnding)
    (hrest : ending = .cr → rest.head? ≠ some '\n') :
    cutLines (line ++ (ending.text ++ rest)) = line :: cutLines rest := by
  induction line with
  | nil =>
    cases ending with
    | crlf | lf => rfl
    | cr =>
      simp only [LineEnding.text, List.nil_append, List.singleton_append]
      rw [cutLines]
      exact fun _ h => hrest rfl (by rw [h, List.head?_cons])
  | cons c line ih =>
    rw [List.cons_append, cutLines_cons_of_not_terminator (h c List.mem_cons_self),
      ih fun d hd => h d (List.mem_cons_of_mem _ hd)]
    rfl

theorem inline_of_mem_cutLines (h : line ∈ cutLines text) : Inline line := by
  fun_induction cutLines text generalizing line with
  | case1 => exact List.mem_singleton.mp h ▸ inline_nil
  | case2 rest ih | case3 rest _ ih | case4 rest ih =>
    rcases List.mem_cons.mp h with rfl | h
    · exact inline_nil
    · exact ih h
  | case5 c rest _ hcr hlf ih =>
    have hc := isTerminator_eq_false hcr hlf
    rw [extendFirst.eq_def] at h
    split at h
    next hnil => exact absurd hnil (cutLines_ne_nil rest)
    next first lines heq =>
      rw [heq] at ih
      rcases List.mem_cons.mp h with rfl | h
      · exact inline_cons hc (ih List.mem_cons_self)
      · exact ih (List.mem_cons_of_mem _ h)

/-- A text is a line, or it has a first line and a line ending after it. -/
theorem exists_line (text : List Char) :
    Inline text ∨ ∃ line, ∃ ending : LineEnding, ∃ rest, text = line ++ (ending.text ++ rest) ∧
      Inline line ∧ (ending = .cr → rest.head? ≠ some '\n') := by
  fun_induction cutLines text with
  | case1 => exact .inl inline_nil
  | case2 rest => exact .inr ⟨[], .crlf, rest, rfl, inline_nil, by simp⟩
  | case3 rest hlf =>
    refine .inr ⟨[], .cr, rest, rfl, inline_nil, fun _ h => ?_⟩
    obtain ⟨after, rfl⟩ := List.head?_eq_some_iff.mp h
    exact hlf after rfl
  | case4 rest => exact .inr ⟨[], .lf, rest, rfl, inline_nil, by simp⟩
  | case5 c rest _ hcr hlf ih =>
    have hc := isTerminator_eq_false hcr hlf
    rcases ih with h | ⟨line, ending, rest, rfl, h, hrest⟩
    · exact .inl (inline_cons hc h)
    · exact .inr ⟨c :: line, ending, rest, rfl, inline_cons hc h, hrest⟩

/-! ### Joining lines -/

/-- What lines without terminators are joined to starts with a terminator other than a line feed, if
it starts with one. -/
theorem head?_intercalate (h : ∀ line ∈ lines, Inline line) {ending : LineEnding}
    (hending : ending = .cr) : (ending.text.intercalate lines).head? ≠ some '\n' := by
  subst hending
  have hfirst {line : List Char} (h : Inline line) (hne : line ≠ []) (rest : List Char) :
      (line ++ rest).head? ≠ some '\n' := by
    obtain ⟨c, others, rfl⟩ := List.exists_cons_of_ne_nil hne
    have hc := h c List.mem_cons_self
    rintro heq
    cases Option.some.inj heq
    contradiction
  cases lines with
  | nil => simp
  | cons line lines =>
    have hline := h line List.mem_cons_self
    cases lines with
    | nil =>
      by_cases hne : line = []
      · simp [hne]
      · simpa using hfirst hline hne []
    | cons second lines =>
      rw [List.intercalate_cons_cons, List.append_assoc]
      by_cases hne : line = []
      · simp [hne, LineEnding.text]
      · exact hfirst hline hne _

theorem cutLines_intercalate (h : ∀ line ∈ lines, Inline line) (hne : lines ≠ [])
    (ending : LineEnding) : cutLines (ending.text.intercalate lines) = lines := by
  induction lines with
  | nil => exact absurd rfl hne
  | cons line lines ih =>
    have hothers : ∀ line ∈ lines, Inline line := fun other hmem =>
      h other (List.mem_cons_of_mem _ hmem)
    cases lines with
    | nil =>
      rw [List.intercalate_singleton]
      exact cutLines_of_inline (h line List.mem_cons_self)
    | cons second lines =>
      rw [List.intercalate_cons_cons, List.append_assoc,
        cutLines_append (h line List.mem_cons_self) ending (head?_intercalate hothers),
        ih hothers (by simp)]

theorem detect?_of_inline (h : Inline line) (rest : List Char) :
    LineEnding.detect? (line ++ rest) = LineEnding.detect? rest := by
  induction line with
  | nil => rfl
  | cons c line ih =>
    have hc := h c List.mem_cons_self
    have hcr : c ≠ '\r' := by rintro rfl; contradiction
    have hlf : c ≠ '\n' := by rintro rfl; contradiction
    rw [List.cons_append, LineEnding.detect?, ih fun d hd => h d (List.mem_cons_of_mem _ hd)]
    · exact fun _ h => absurd h hcr
    · exact hcr
    · exact hlf

theorem detect?_ending {ending : LineEnding} (hrest : ending = .cr → rest.head? ≠ some '\n') :
    LineEnding.detect? (ending.text ++ rest) = some ending := by
  cases ending with
  | crlf | lf => rfl
  | cr =>
    simp only [LineEnding.text, List.singleton_append]
    rw [LineEnding.detect?]
    exact fun _ h => hrest rfl (by rw [h, List.head?_cons])

/-- The first line ending of joined lines is found, if there are two of them. -/
theorem detect?_intercalate (h : ∀ line ∈ lines, Inline line) (ending : LineEnding) :
    LineEnding.detect? (ending.text.intercalate lines) =
      if lines.length ≤ 1 then none else some ending := by
  cases lines with
  | nil => rfl
  | cons line lines =>
    have hline := h line List.mem_cons_self
    cases lines with
    | nil =>
      rw [List.intercalate_singleton, ← List.append_nil line, detect?_of_inline hline]
      rfl
    | cons second lines =>
      have hothers : ∀ line ∈ second :: lines, Inline line := fun other hmem =>
        h other (List.mem_cons_of_mem _ hmem)
      rw [List.intercalate_cons_cons, List.append_assoc, detect?_of_inline hline]
      have hlength : ¬ (line :: second :: lines).length ≤ 1 := by simp
      rw [if_neg hlength]
      exact detect?_ending (head?_intercalate hothers)

/-- A text without terminators is the only one that is a single line. -/
theorem detect?_of_length (h : (cutLines text).length ≤ 1) : LineEnding.detect? text = none := by
  fun_induction cutLines text with
  | case1 => rfl
  | case2 rest | case3 rest | case4 rest =>
    have hpos := List.length_pos_iff.mpr (cutLines_ne_nil rest)
    rw [List.length_cons] at h
    omega
  | case5 c rest _ hcr hlf ih =>
    have hc := isTerminator_eq_false hcr hlf
    have hline : Inline [c] := fun d hd => List.mem_singleton.mp hd ▸ hc
    rw [← List.singleton_append, detect?_of_inline hline]
    refine ih ?_
    rw [extendFirst.eq_def] at h
    split at h
    next hnil => exact absurd hnil (cutLines_ne_nil rest)
    next heq => simpa [heq] using h

/-- Joined lines are split again, with the line ending between them if there are two of them. -/
theorem split_join {program : Program} (h : ∀ line ∈ program.lines, Inline line)
    (hne : program.lines ≠ []) (fallback : LineEnding) :
    split program.join fallback =
      { program with ending := if program.lines.length ≤ 1 then fallback else program.ending } := by
  rw [split, join, cutLines_intercalate h hne, detect?_intercalate h]
  split <;> rfl

/-- Programs with one line ending are told apart by their text. -/
theorem join_inj {program program' : Program} (h : ∀ line ∈ program.lines, Inline line)
    (h' : ∀ line ∈ program'.lines, Inline line) (hne : program.lines ≠ [])
    (hne' : program'.lines ≠ []) (hending : program.ending = program'.ending) :
    program.join = program'.join ↔ program = program' := by
  refine ⟨fun hjoin => ?_, congrArg join⟩
  have hlines := congrArg cutLines hjoin
  rw [join, join, cutLines_intercalate h hne, cutLines_intercalate h' hne'] at hlines
  cases program
  cases hlines
  cases hending
  rfl

/-! ### Rewriting lines -/

section
variable {program : Program} {f g : List Char → List Char}

/-- Lines that are rewritten to lines stay as many lines. -/
theorem inline_of_mem_map (h : ∀ line ∈ program.lines, Inline line)
    (hf : ∀ line ∈ program.lines, Text.isBlankLine line = false → Inline (f line)) :
    ∀ line ∈ (program.map f).lines, Inline line := by
  intro line hline
  obtain ⟨source, hsource, rfl⟩ := List.mem_map.mp hline
  split
  next => exact h source hsource
  next hblank => exact hf source hsource (by simpa using hblank)

theorem map_lines_ne_nil (h : program.lines ≠ []) : (program.map f).lines ≠ [] := by
  simpa [map] using h

/-- A program whose lines were rewritten is split into the rewritten lines. -/
theorem split_join_map (h : ∀ line ∈ program.lines, Inline line) (hne : program.lines ≠ [])
    (hf : ∀ line ∈ program.lines, Text.isBlankLine line = false → Inline (f line))
    (fallback : LineEnding) :
    split (program.map f).join fallback =
      { program.map f with
        ending := if program.lines.length ≤ 1 then fallback else program.ending } := by
  rw [split_join (inline_of_mem_map h hf) (map_lines_ne_nil hne)]
  simp [map]

/-- The line ending of a text is found again in the rewritten text. -/
theorem split_join_map_split (hf : ∀ {line}, Inline line → Inline (f line)) (text : List Char)
    (fallback : LineEnding) :
    split ((split text fallback).map f).join fallback = (split text fallback).map f := by
  rw [split_join_map (fun _ => inline_of_mem_cutLines) (cutLines_ne_nil text)
    fun _ hline _ => hf (inline_of_mem_cutLines hline)]
  split
  next hlength =>
    have hdetect : LineEnding.detect? text = none := detect?_of_length hlength
    simp [map, split, hdetect]
  next => rfl

/-- Rewriting the lines of a program again changes nothing if and only if it changes none of the
rewritten lines. -/
theorem join_map_again_iff (hf : ∀ {line}, Inline line → Inline (f line)) (text : List Char)
    (fallback : LineEnding) :
    ((split ((split text fallback).map f).join fallback).map f).join =
        ((split text fallback).map f).join ↔
      ∀ line ∈ cutLines text, Text.isBlankLine line = false →
        (if Text.isBlankLine (f line) then f line else f (f line)) = f line := by
  have inline : ∀ line ∈ ((split text fallback).map f).lines, Inline line :=
    inline_of_mem_map (fun _ => inline_of_mem_cutLines) fun _ hline _ =>
      hf (inline_of_mem_cutLines hline)
  have hne : ((split text fallback).map f).lines ≠ [] := map_lines_ne_nil (cutLines_ne_nil text)
  have inline' := inline_of_mem_map inline fun _ hline _ => hf (inline _ hline)
  rw [split_join_map_split hf, join_inj inline' inline (map_lines_ne_nil hne) hne rfl]
  simp only [map, split, List.map_map, mk.injEq, and_true, List.map_inj_left]
  refine forall₂_congr fun line _ => ?_
  cases hblank : Text.isBlankLine line with
  | true => simp [hblank]
  | false => simp [hblank]

/-- Rewriting the lines of a program with `f` and then with `g` is rewriting them with `g`, if it is
so for each of its lines. -/
theorem join_map_split_join_map_of_mem {text : List Char}
    (hinline : ∀ {line}, Inline line → Inline (f line))
    (h : ∀ {line}, line ∈ cutLines text → Text.isBlankLine line = false →
      (if Text.isBlankLine (f line) then f line else g (f line)) = g line)
    (fallback : LineEnding) :
    ((split ((split text fallback).map f).join fallback).map g).join =
      ((split text fallback).map g).join := by
  rw [split_join_map_split hinline]
  refine congrArg join ?_
  simp only [map, List.map_map]
  congr 1
  refine List.map_congr_left fun line hline => ?_
  cases hblank : Text.isBlankLine line with
  | true => simp [hblank]
  | false => simpa [hblank] using h hline hblank

/-- Rewriting the lines of a program with `f` and then with `g` is rewriting them with `g`, if it is
so for every line. -/
theorem join_map_split_join_map
    (hinline : ∀ {line}, Inline line → Inline (f line))
    (h : ∀ {line}, Inline line → Text.isBlankLine line = false →
      (if Text.isBlankLine (f line) then f line else g (f line)) = g line)
    (text : List Char) (fallback : LineEnding) :
    ((split ((split text fallback).map f).join fallback).map g).join =
      ((split text fallback).map g).join :=
  join_map_split_join_map_of_mem hinline (fun hline => h (inline_of_mem_cutLines hline)) fallback

end

end PocketBasic.Program
