import PocketBasic.Proofs.Lexeme.Modes

/-! The lexemes of a line. Nothing follows a comment there, and nothing but a comment follows the
word that opens one. -/

namespace PocketBasic.Lexeme

variable {table : Keyword.Table} {place : Place} {lexeme : Lexeme} {lexemes : List Lexeme}
  {rest : List Char}

/-- None of the lexemes ends the line. -/
def OnLine (lexemes : List Lexeme) : Prop :=
  ∀ lexeme ∈ lexemes, lexeme.kind ≠ .newline

theorem OnLine.tail (h : OnLine (lexeme :: lexemes)) : OnLine lexemes :=
  fun other hmem => h other (List.mem_cons_of_mem _ hmem)

/-- What ends a line is no part of a word inside of one. -/
theorem not_mem_of_endsLine {word : List Char} (hend : endsLine rest = true) (hword : Inline word) :
    ∀ c ∈ rest.head?, c ∉ word := by
  intro c hc hmem
  rw [endsLine, Option.mem_def.mp hc, Option.all_some, hword c hmem] at hend
  contradiction

theorem Quoted.inline {text : List Char} (h : Quoted text rest) : Inline text := by
  cases h with
  | closed hline =>
    intro c hc
    rcases List.mem_append.mp hc with hc | hc
    · exact hline c hc
    · rw [List.mem_singleton.mp hc]
      rfl
  | opened hline => exact hline

/-- Only line ends hold terminators. -/
theorem Opens.inline (law : table.Lawful) (first : Opens table place lexeme rest)
    (hline : lexeme.kind ≠ .newline) : Inline lexeme.text := by
  cases hverbatim : lexeme.isVerbatim with
  | true =>
    cases first with
    | remark _ hinline => exact hinline
    | string _ h => exact inline_cons rfl h.inline
    | comment _ hinline => exact inline_cons rfl hinline
    | crlf | cr | lf | lineNumber | number | fractional | rem | keyword | pair | mark
      | identifier => contradiction
  | false =>
    cases hisRem : lexeme.isRem with
    | true =>
      rw [(isRem_iff.mp hisRem).2]
      decide
    | false =>
      obtain ⟨-, inCode⟩ := first.inCode law hverbatim hline hisRem
      exact fun c hc => not_terminator_of_isPlain (inCode.isPlain c hc)

/-- Only a line end starts with a terminator. -/
theorem Opens.endsLine_eq (law : table.Lawful) (first : Opens table place lexeme rest)
    (hline : lexeme.kind ≠ .newline) : endsLine (lexeme.text ++ rest) = false := by
  obtain ⟨c, tail, htext⟩ := List.exists_cons_of_ne_nil (first.text_ne_nil law)
  rw [htext]
  exact endsLine_cons_append (first.inline law hline c (by simp [htext]))

/-- A line end consists of terminators. -/
theorem Opens.newline_cases (first : Opens table place lexeme rest) (h : lexeme.kind = .newline) :
    lexeme.text ≠ [] ∧ ∀ c ∈ lexeme.text, isTerminator c = true := by
  cases first with
  | crlf | cr | lf => decide
  | remark | lineNumber | number | fractional | string | comment | rem | keyword | pair | mark
    | identifier => contradiction

/-- A text without terminators is read as one line. -/
theorem Scans.onLine (scans : Scans table place lexemes) (h : Inline (written lexemes)) :
    OnLine lexemes := by
  induction scans with
  | nil => exact fun _ hmem => absurd hmem List.not_mem_nil
  | cons first others ih =>
    intro other hmem hkind
    rcases List.mem_cons.mp hmem with rfl | hmem
    · obtain ⟨hne, hterm⟩ := first.newline_cases hkind
      obtain ⟨c, hc⟩ := List.exists_mem_of_ne_nil _ hne
      have hterm := hterm c hc
      rw [h c (by simp [hc])] at hterm
      contradiction
    · exact ih (fun c hc => h c (by simp [hc])) other hmem hkind

theorem Scans.eq_nil_of_endsLine (law : table.Lawful) (scans : Scans table place lexemes)
    (line : OnLine lexemes) (h : endsLine (written lexemes) = true) : lexemes = [] := by
  cases scans with
  | nil => rfl
  | cons first others =>
    rw [written_cons, first.endsLine_eq law (line _ List.mem_cons_self)] at h
    contradiction

/-- What a comment looks like, and what comes after it. -/
theorem Opens.comment_cases (first : Opens table place lexeme rest)
    (h : lexeme.kind = .comment) : lexeme.text ≠ [] ∧ Inline lexeme.text ∧ endsLine rest = true ∧
      (place ≠ .afterRem → ∃ text, lexeme.text = '\'' :: text) := by
  cases first with
  | remark hne hline hend => exact ⟨hne, hline, hend, fun hplace => absurd rfl hplace⟩
  | comment _ hline hend =>
    exact ⟨List.cons_ne_nil _ _, inline_cons rfl hline, hend, fun _ => ⟨_, rfl⟩⟩
  | crlf | cr | lf | lineNumber | number | fractional | string | rem | keyword | pair | mark
    | identifier => contradiction

/-- Nothing follows a comment on its line. -/
theorem Scans.eq_nil_of_comment (law : table.Lawful) (scans : Scans table place (lexeme :: lexemes))
    (line : OnLine (lexeme :: lexemes)) (h : lexeme.kind = .comment) : lexemes = [] := by
  cases scans with
  | cons first others =>
    exact others.eq_nil_of_endsLine law line.tail (first.comment_cases h).2.2.1

/-- Nothing but a comment follows a `REM` on its line. -/
theorem Scans.eq_nil_or_comment (law : table.Lawful)
    (scans : Scans table place (lexeme :: lexemes)) (line : OnLine (lexeme :: lexemes))
    (h : lexeme.isRem = true) :
    lexemes = [] ∨ ∃ comment, lexemes = [comment] ∧ comment.kind = .comment ∧
      comment.text ≠ [] ∧ Inline comment.text := by
  cases scans with
  | cons first others =>
    rw [placeAfter_eq_afterRem h] at others
    cases others with
    | nil => exact .inl rfl
    | @cons _ comment lexemes second others =>
      have hkind : comment.kind = .comment := Decidable.byContradiction fun hne =>
        second.place_ne (line.tail _ List.mem_cons_self) hne rfl
      obtain ⟨hne, hinline, hend, -⟩ := second.comment_cases hkind
      rw [others.eq_nil_of_endsLine law line.tail.tail hend]
      exact .inr ⟨comment, rfl, hkind, hne, hinline⟩

/-! ### Lines as they are typed -/

theorem inline_of_blank {text : List Char} (h : ∀ c ∈ text, Text.isBlank c = true) :
    Inline text := by
  intro c hc
  rw [← Bool.not_eq_true]
  intro hterm
  have hblank := h c hc
  rw [Folding.not_blank_of_terminator hterm] at hblank
  contradiction

theorem inline_written_ofText (law : table.Lawful) {text : List Char} (h : Inline text) :
    Inline (written (ofText table text)) := by
  rw [(ofText_spec law text).2.2]
  exact fun c hc => h c ((Folding.kept_sublist .code text []).subset hc)

theorem onLine_ofText (law : table.Lawful) {text : List Char} (h : Inline text) :
    OnLine (ofText table text) :=
  (ofText_spec law text).1.onLine (inline_written_ofText law h)

end PocketBasic.Lexeme
