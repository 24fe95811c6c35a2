import PocketBasic.Proofs.Lexeme.Context
import PocketBasic.Proofs.Lexeme.Line

/-! Lexemes at the end of a line. To a lexeme, a terminator is the end of the text: it looks no
further, so a line is read as it is when nothing follows it (`Opens.terminated`), and the line after
it is read from the start of a line (`ofText_terminated`). -/

namespace PocketBasic.Lexeme

open Folding

variable {table : Keyword.Table} {place : Place} {lexeme : Lexeme} {lexemes others : List Lexeme}
  {word text line rest more : List Char} {e : Char}

/-! ### One lexeme -/

theorem isPrefix_of_terminated (he : isTerminator e = true) (hword : Inline word)
    (h : word <+: text ++ e :: more) : word <+: text := by
  have hend : endsLine (e :: more) = true := he
  exact Text.isPrefix_of_append (not_mem_of_endsLine hend hword) h

theorem inline_of_spells (law : table.Lawful) (h : table.Spells word) : Inline word := fun c hc =>
  not_terminator_of_isPlain (isPlain_of_isSpellingChar (h.isSpellingChar law c hc)).1

/-- Nothing goes on over the end of a line. -/
theorem apart_of_terminator (law : table.Lawful) (he : isTerminator e = true)
    (rest more : List Char) : Apart table rest (e :: more) where
  not_digit := startsDigit_of_endsLine he
  not_sign := by rcases isTerminator_iff.mp he with rfl | rfl <;> rfl
  stops hword := by
    refine isPrefix_of_terminated he ?_
    rcases hword with hspells | rfl
    exacts [inline_of_spells law hspells, by decide]

/-- A lexeme is read in front of a text to which a terminator is added, if it does not end a line
itself. -/
theorem Opens.terminated (law : table.Lawful) (first : Opens table place lexeme rest)
    (hline : lexeme.kind ≠ .newline) (he : isTerminator e = true) (more : List Char) :
    Opens table place lexeme (rest ++ e :: more) := by
  have apart := apart_of_terminator law he rest more
  cases rest with
  | nil =>
    exact first.congr_kept law hline (.of_endsLine rfl he) fun hword hrem =>
      (first.bounded law hword hrem).append apart
  | cons c rest => exact first.append law (List.cons_ne_nil c rest) apart

/-! ### Lines -/

/-- A line is read in front of a terminator as it is at the end of a text. -/
theorem Scans.terminated (law : table.Lawful) (scans : Scans table place lexemes)
    (onLine : OnLine lexemes) {newline : Lexeme} (hkind : newline.kind = .newline)
    (opens : ∀ place, Opens table place newline (written others))
    (hothers : Scans table .lineStart others) :
    Scans table place (lexemes ++ newline :: others) := by
  induction scans with
  | nil =>
    refine .cons (opens _) ?_
    rwa [placeAfter, if_pos hkind]
  | @cons place lexeme lexemes first _ ih =>
    obtain ⟨hne, hterm⟩ := (opens place).newline_cases hkind
    obtain ⟨e, tail, htext⟩ := List.exists_cons_of_ne_nil hne
    rw [List.cons_append]
    refine .cons ?_ (ih onLine.tail)
    rw [written_append, written_cons, htext]
    exact first.terminated law (onLine lexeme List.mem_cons_self)
      (hterm e (by simp [htext])) _

/-- What is kept of the code starts with the first character that is not blank. -/
theorem head?_kept (text : List Char) :
    (kept .code text []).head? = (Text.content text).head? := by
  induction text with
  | nil => rfl
  | cons c text ih =>
    cases hc : Text.isBlank c with
    | true => rw [kept_cons_of_drops rfl hc, Text.content_cons_of_blank hc, ih]
    | false => rw [kept_cons_of_keeps (.inr hc), Text.content_cons_of_not_blank hc]; rfl

theorem opens_ending {ending : LineEnding} (h : ending = .cr → rest.head? ≠ some '\n')
    (place : Place) : Opens table place ⟨.newline, ending.text⟩ rest := by
  cases ending with
  | crlf => exact .crlf
  | cr => exact .cr (h rfl)
  | lf => exact .lf

/-- A line is read as it is without the lines after it, its line end is read next, and what follows
is read as it is without the line. A carriage return looks past blanks for its line feed. -/
theorem ofText_terminated (law : table.Lawful) (h : Inline line) {ending : LineEnding}
    (hrest : ending = .cr → (Text.content rest).head? ≠ some '\n') :
    ofText table (line ++ (ending.text ++ rest)) =
      ofText table line ++ ⟨.newline, ending.text⟩ :: ofText table rest := by
  obtain ⟨scans, -, hwritten⟩ := ofText_spec law line
  obtain ⟨scans', -, hwritten'⟩ := ofText_spec law rest
  have onLine := onLine_ofText law h
  refine ofText_eq_of_scans law (scans.terminated law onLine rfl (opens_ending ?_) scans') ?_
  · rw [hwritten', head?_kept]
    exact hrest
  · rw [written_append, written_cons, hwritten, hwritten']
    cases ending with
    | crlf =>
      have hlf := kept_terminated (e := '\n') rfl .code [] rest
      rw [List.nil_append] at hlf
      simp only [LineEnding.text, List.cons_append, List.nil_append]
      rw [kept_terminated rfl, hlf]
      rfl
    | cr | lf =>
      simp only [LineEnding.text, List.cons_append, List.nil_append]
      rw [kept_terminated rfl]

end PocketBasic.Lexeme
