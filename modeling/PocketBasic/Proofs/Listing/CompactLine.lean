import PocketBasic.Proofs.Lexeme.Trimmed
import PocketBasic.Proofs.Listing.Compacted
import PocketBasic.Proofs.Listing.Idempotent

/-! The compact form of a line, whatever it reads as. It carries the number of the line
(`split_compactLine`) and stays on it (`inline_compactLine`), and the blanks at its end are those
at the end of the line (`Lexeme.flatMap_compactForm_trimmed`). -/

namespace PocketBasic

open Lexeme

namespace Lexeme

variable {table : Keyword.Table} {place : Place} {lexeme next : Lexeme} {lexemes : List Lexeme}
  {rest : List Char}

theorem compactForm_of_kind_ne (h : lexeme.kind ≠ .keyword) :
    lexeme.compactForm table = lexeme.text :=
  compactForm_of_none (keyword?_of_kind_ne h)

/-- What the compact spelling of a lexeme is written with that is not in the lexeme. -/
theorem Opens.mem_compactForm (terse : table.Terse) (first : Opens table place lexeme rest)
    {c : Char} (hc : c ∈ lexeme.compactForm table) : c ∈ lexeme.text ∨ isSpellingChar c = true := by
  rcases first.compactForm_eq_or terse.toLawful with heq | ⟨keyword, h⟩
  · exact .inl (heq ▸ hc)
  · rw [h.compactForm_eq] at hc
    exact .inr ((terse.regular h.mem).isSpellingChar_of_mem (terse.compactForm_mem h.mem) c hc)

theorem Opens.compactForm_ne_nil (terse : table.Terse) (first : Opens table place lexeme rest) :
    lexeme.compactForm table ≠ [] := by
  rcases first.compactForm_eq_or terse.toLawful with heq | ⟨keyword, h⟩
  · exact heq ▸ first.text_ne_nil terse.toLawful
  · rw [h.compactForm_eq]
    exact (terse.regular h.mem).ne_nil_of_mem (terse.compactForm_mem h.mem)

theorem Opens.not_blank_compactForm (terse : table.Terse) (first : Opens table place lexeme rest)
    (h : ∀ c ∈ lexeme.text, Text.isBlank c = false) :
    ∀ c ∈ lexeme.compactForm table, Text.isBlank c = false := by
  intro c hc
  rcases first.mem_compactForm terse hc with hc | hc
  · exact h c hc
  · exact (isPlain_of_isSpellingChar hc).2

/-- A lexeme that is not blank is not blank in its compact spelling. -/
theorem Opens.content_compactForm_ne_nil (terse : table.Terse)
    (first : Opens table place lexeme rest) (h : Text.content lexeme.text ≠ []) :
    Text.content (lexeme.compactForm table) ≠ [] := by
  rcases first.compactForm_eq_or terse.toLawful with heq | ⟨keyword, respelled⟩
  · rwa [heq]
  · have hform := terse.compactForm_mem respelled.mem
    have reg := terse.regular respelled.mem
    rw [respelled.compactForm_eq, reg.content_eq hform]
    exact reg.ne_nil_of_mem hform

theorem Scans.inline_compactForm (terse : table.Terse) (scans : Scans table place lexemes)
    (h : Inline (written lexemes)) : Inline (lexemes.flatMap (compactForm table)) := by
  induction scans with
  | nil => exact h
  | cons first others ih =>
    intro c hc
    rw [List.flatMap_cons, List.mem_append] at hc
    rcases hc with hc | hc
    · rcases first.mem_compactForm terse hc with hc | hc
      · exact h c (List.mem_append_left _ hc)
      · exact not_terminator_of_isPlain (isPlain_of_isSpellingChar hc).1
    · exact ih (fun d hd => h d (List.mem_append_right _ hd)) c hc

/-! ### Blanks at the end -/

/-- Nothing but the last lexeme of a line ends in a blank. -/
theorem Scans.endsBlank_eq (law : table.Lawful) (scans : Scans table place (lexeme :: next :: lexemes))
    (folded : Folded (lexeme :: next :: lexemes)) (line : OnLine (lexeme :: next :: lexemes)) :
    Text.endsBlank lexeme.text = false := by
  cases hverbatim : lexeme.isVerbatim with
  | false => exact Text.endsBlank_of_not_blank (folded.head hverbatim)
  | true =>
    by_cases hcomment : lexeme.kind = .comment
    · exact absurd (scans.eq_nil_of_comment law line hcomment) (by simp)
    cases scans with
    | cons first others =>
      cases first with
      | string _ quoted =>
        cases quoted with
        | closed => exact Text.endsBlank_append (by simp) ('"' :: _)
        | opened _ _ hend => exact absurd (others.eq_nil_of_endsLine law line.tail hend) (by simp)
      | remark | comment => exact absurd rfl hcomment
      | crlf | cr | lf | lineNumber | number | fractional | rem | keyword | pair | mark
        | identifier => contradiction

theorem Scans.endsBlank_compactForm (terse : table.Terse)
    (scans : Scans table place (lexeme :: next :: lexemes))
    (folded : Folded (lexeme :: next :: lexemes)) (line : OnLine (lexeme :: next :: lexemes)) :
    Text.endsBlank (lexeme.compactForm table) = false := by
  have hends := scans.endsBlank_eq terse.toLawful folded line
  cases scans with
  | cons first others =>
    rcases first.compactForm_eq_or terse.toLawful with heq | ⟨keyword, h⟩
    · rwa [heq]
    · have hform := terse.compactForm_mem h.mem
      rw [h.compactForm_eq]
      exact Text.endsBlank_of_not_blank ((terse.regular h.mem).not_blank hform)

private theorem trimmed_of_not_blank (hne : lexeme.text ≠ [])
    (h : ∀ c ∈ lexeme.text, Text.isBlank c = false) : trimmed [lexeme] = [lexeme] := by
  have htrim := Text.trimRight_eq (Text.endsBlank_of_not_blank h)
  rw [trimmed, htrim, if_neg hne]

/-- Trimming a line and giving it its compact spellings may change places. -/
theorem Scans.map_compacted_trimmed (terse : table.Terse) (scans : Scans table place lexemes)
    (folded : Folded lexemes) :
    (Lexeme.trimmed lexemes).map (compacted table) =
      Lexeme.trimmed (lexemes.map (compacted table)) := by
  induction scans with
  | nil => rfl
  | @cons place lexeme lexemes first others ih =>
    cases lexemes with
    | cons next lexemes => exact congrArg (compacted table lexeme :: ·) (ih folded.tail)
    | nil =>
      cases hverbatim : lexeme.isVerbatim with
      | true =>
        have hkind := kind_ne_of_isVerbatim hverbatim
        rw [List.map_cons, List.map_nil, compacted_eq (compactForm_of_kind_ne hkind),
          Lexeme.trimmed]
        split
        · rfl
        · exact congrArg (fun text => [Lexeme.mk lexeme.kind text]) (compactForm_of_kind_ne hkind)
      | false =>
        have hblank := folded.head hverbatim
        rw [trimmed_of_not_blank (first.text_ne_nil terse.toLawful) hblank, List.map_cons,
          List.map_nil, trimmed_of_not_blank (first.compactForm_ne_nil terse)
            (first.not_blank_compactForm terse hblank)]

/-- The blanks at the end of a compact form are those at the end of the line. -/
theorem Scans.flatMap_compactForm_trimmed (terse : table.Terse) (scans : Scans table place lexemes)
    (folded : Folded lexemes) (line : OnLine lexemes) :
    (Lexeme.trimmed lexemes).flatMap (compactForm table) =
      Text.trimRight (lexemes.flatMap (compactForm table)) := by
  rw [← written_compacted, scans.map_compacted_trimmed terse folded]
  induction scans with
  | nil => rfl
  | @cons place lexeme lexemes first others ih =>
    cases lexemes with
    | nil =>
      rw [List.map_cons, List.map_nil, Lexeme.trimmed, List.flatMap_cons, List.flatMap_nil,
        List.append_nil]
      split
      next hnil => exact hnil.symm
      next => exact List.append_nil _
    | cons next lexemes =>
      have scans := Scans.cons first others
      rw [List.flatMap_cons, Text.trimRight_append (scans.endsBlank_compactForm terse folded line),
        ← ih folded.tail line.tail]
      rfl

end Lexeme

/-! ### Numbers -/

section
variable {table : Keyword.Table} {line body : List Char}

theorem compactLine_eq {number : Option LineNumber} (h : LineNumber.split line = (number, body)) :
    compactLine table line =
      number.elim [] LineNumber.text ++ (ofText table body).flatMap (compactForm table) := by
  rw [compactLine, h]

/-- The compact spellings of a text start with the digits that the text starts with. -/
theorem takeWhile_isDigit_compactForm (terse : table.Terse) (text : List Char) :
    (Text.content ((ofText table text).flatMap (compactForm table))).takeWhile Char.isDigit =
      (Text.content text).takeWhile Char.isDigit := by
  obtain ⟨scans, -, hwritten⟩ := ofText_spec terse.toLawful text
  have alike := scans.alike_compacted terse scans rfl
  rw [← written_compacted, ← takeWhile_isDigit_eq terse.toLawful alike, hwritten,
    Folding.content_kept]

/-- The number of a line and its compact spellings are told apart again. -/
theorem split_compactLine (terse : table.Terse) (line : List Char) :
    LineNumber.split (compactLine table line) =
      ((LineNumber.split line).1,
        (ofText table (LineNumber.split line).2).flatMap (compactForm table)) := by
  have hdigits := takeWhile_isDigit_compactForm terse (LineNumber.split line).2
  rw [compactLine]
  cases hsplit : LineNumber.split line with
  | mk number body =>
    rw [hsplit] at hdigits
    cases number with
    | none =>
      obtain rfl := LineNumber.eq_of_split hsplit
      exact LineNumber.split_eq_none hdigits hsplit
    | some number =>
      exact LineNumber.split_append number
        (hdigits.trans (LineNumber.takeWhile_content_of_split hsplit))

/-! ### Lines -/

theorem inline_flatMap_compactForm (terse : table.Terse) (h : Inline body) :
    Inline ((ofText table body).flatMap (compactForm table)) :=
  (ofText_spec terse.toLawful body).1.inline_compactForm terse
    (inline_written_ofText terse.toLawful h)

/-- A line stays one line. -/
theorem inline_compactLine (terse : table.Terse) (h : Inline line) :
    Inline (compactLine table line) := by
  intro c hc
  rw [compactLine, List.mem_append] at hc
  rcases hc with hc | hc
  · cases hnumber : (LineNumber.split line).1 with
    | none => simp [hnumber] at hc
    | some number => exact number.inline_text c (by simpa [hnumber] using hc)
  · exact inline_flatMap_compactForm terse (Listing.inline_split h) c hc

/-- A line that is not blank has a compact form that is not blank. -/
theorem isBlankLine_compactLine (terse : table.Terse) (h : Text.isBlankLine line = false) :
    Text.isBlankLine (compactLine table line) = false := by
  have blank_iff (text : List Char) : Text.isBlankLine text = true ↔ Text.content text = [] := by
    rw [Text.content_eq_nil_iff, Text.isBlankLine, List.all_eq_true]
  rw [← Bool.not_eq_true, blank_iff] at h ⊢
  intro hcontent
  apply h
  rw [compactLine, Text.content_append, List.append_eq_nil_iff] at hcontent
  obtain ⟨hnumber, hforms⟩ := hcontent
  cases hsplit : LineNumber.split line with
  | mk number body =>
    rw [hsplit] at hnumber hforms
    cases number with
    | some number =>
      have hcontent : Text.content number.text = number.text :=
        Text.content_eq_self_iff.mpr number.not_blank_of_mem_text
      exact absurd (hcontent.symm.trans hnumber) number.text_ne_nil
    | none =>
      obtain rfl := LineNumber.eq_of_split hsplit
      obtain ⟨scans, folded, hwritten⟩ := ofText_spec terse.toLawful body
      rw [← Folding.content_kept .code body [], ← hwritten]
      generalize ofText table body = lexemes at *
      cases scans with
      | nil => rfl
      | @cons _ lexeme lexemes first others =>
        have hstart := (Scans.cons first others).startsBlank_eq terse.toLawful folded (by decide)
        obtain ⟨c, tail, htext⟩ := List.exists_cons_of_ne_nil (first.text_ne_nil terse.toLawful)
        rw [written_cons, htext] at hstart
        rw [List.flatMap_cons, Text.content_append, List.append_eq_nil_iff] at hforms
        refine absurd hforms.1 (first.content_compactForm_ne_nil terse ?_)
        simp [htext, Text.content_cons_of_not_blank hstart]

end

end PocketBasic
