import PocketBasic.Proofs.Lexeme.Trimmed
import PocketBasic.Proofs.Listing.Stable
import PocketBasic.Proofs.Program.Lines

/-! Reformatting a line again. What a listing shows in front of its body is read back as the number
of the line, since the body starts with a digit only where the line does, and the body is a
settled listing, which is listed as it is. -/

namespace PocketBasic

open Lexeme

namespace Listing

variable {table : Keyword.Table} {entries : List Entry}

/-- The number in front of a listing, and the space that sets it off. -/
def label (number : Option LineNumber) (entries : List Entry) : List Char :=
  number.elim [] fun number => number.text ++ if entries = [] then [] else [' ']

theorem Mirrored.label_eq {entries' : List Entry} (h : Mirrored table entries entries')
    (number : Option LineNumber) : label number entries' = label number entries := by
  have hnil : entries' = [] ↔ entries = [] := by
    rw [← List.length_eq_zero_iff, h.length_eq, List.length_eq_zero_iff]
  simp only [label, hnil]

/-- The entries list the lexemes of a line with this body: they read back as these, and their
listing has no blanks around it. -/
structure Settled (table : Keyword.Table) (body : List Char) (entries : List Entry) : Prop where
  lexemes_eq : entries.map (·.lexeme) = ofText table (Text.trim body)
  ofLine : OfLine table entries
  difference?_eq_none : difference? table entries = none
  isTrimmed : Text.IsTrimmed (render table entries)

theorem forall₂_alike_listed (law : table.Lawful) {place : Place}
    (scans : Scans table place (entries.map (·.lexeme))) :
    List.Forall₂ (Alike table) (entries.map (·.lexeme)) (entries.map (Entry.listed table)) := by
  induction entries generalizing place with
  | nil => exact .nil
  | cons entry entries ih =>
    cases scans with
    | cons first others => exact .cons (alike_listed law first) (ih others)

/-- A listing starts with the digits that the line starts with. -/
theorem takeWhile_isDigit_render (law : table.Lawful) (line : OfLine table entries) :
    (Text.content (render table entries)).takeWhile Char.isDigit =
      (Text.content (written (entries.map (·.lexeme)))).takeWhile Char.isDigit := by
  rw [render, content_renderAfter law (line.lineFrom law),
    takeWhile_isDigit_eq law (forall₂_alike_listed law line.scans)]

theorem render_eq_nil_iff (law : table.Lawful) (line : OfLine table entries) :
    render table entries = [] ↔ entries = [] := by
  constructor
  · intro hrender
    cases entries with
    | nil => rfl
    | cons entry entries =>
      cases line.scans with
      | cons first _ => exact absurd hrender (renderAfter_ne_nil law first none)
  · rintro rfl
    rfl

/-- The label of a listing is split off again, and what is left is its body. -/
theorem split_label {number : Option LineNumber} {line body : List Char}
    (hsplit : LineNumber.split line = (number, body)) {listing : List Char}
    (hdigits : (Text.content listing).takeWhile Char.isDigit =
      (Text.content body).takeWhile Char.isDigit)
    (trimmed : Text.IsTrimmed listing) (hnil : entries = [] ↔ listing = []) :
    Text.IsTrimmed (label number entries ++ listing) ∧
      ∃ blanks, (∀ c ∈ blanks, Text.isBlank c = true) ∧
        LineNumber.split (label number entries ++ listing) = (number, blanks ++ listing) := by
  cases number with
  | none =>
    obtain rfl := LineNumber.eq_of_split hsplit
    exact ⟨trimmed, [], by simp, LineNumber.split_eq_none hdigits hsplit⟩
  | some number =>
    have hblank := number.not_blank_of_mem_text
    have hstart (text : List Char) : Text.startsBlank (number.text ++ text) = false := by
      obtain ⟨c, others, hdecimal⟩ := List.exists_cons_of_ne_nil number.text_ne_nil
      rw [hdecimal]
      exact hblank c (by simp [hdecimal])
    rw [LineNumber.takeWhile_content_of_split hsplit] at hdigits
    rw [label, Option.elim_some, List.append_assoc]
    by_cases hentries : entries = []
    · rw [if_pos hentries, hnil.mp hentries, List.append_nil]
      refine ⟨⟨hstart [], ?_⟩, [], by simp, LineNumber.split_append number rfl⟩
      rw [List.append_nil]
      exact Text.endsBlank_of_not_blank hblank
    · have hlisting : listing ≠ [] := fun h => hentries (hnil.mpr h)
      rw [if_neg hentries]
      refine ⟨⟨hstart _, ?_⟩, [' '], by decide, LineNumber.split_append number ?_⟩
      · rw [← List.append_assoc, Text.endsBlank_append hlisting, trimmed.right]
      · rw [Text.content_append]
        exact hdigits

end Listing

/-- A line is listed with its number, if it has one, and its settled entries. -/
theorem reformatLine_eq {table : Keyword.Table} {line body : List Char}
    {number : Option LineNumber} (h : LineNumber.split (Text.trim line) = (number, body)) :
    let entries := (Listing.settle table (Listing.start (Lexeme.ofText table (Text.trim body)))).1
    reformatLine table line = Listing.label number entries ++ Listing.render table entries := by
  rw [reformatLine, Listing.text, Listing.ofLine, h]
  cases number <;> rfl

/-- The entries of a line are the settled lexemes of its body, without the blanks at the end of
it. -/
theorem reformatLine_of_split {table : Keyword.Table} (law : table.Lawful) {line body : List Char}
    {number : Option LineNumber} (h : Inline line) (hsplit : LineNumber.split line = (number, body)) :
    let entries :=
      (Listing.settle table (Listing.start (Lexeme.trimmed (ofText table body)))).1
    reformatLine table line = Listing.label number entries ++ Listing.render table entries := by
  obtain ⟨typed, htyped, htrim⟩ := LineNumber.split_trim hsplit
  rw [← ofText_trim law (Listing.inline_of_split h hsplit), ← htrim]
  exact reformatLine_eq htyped

/-- The settled entries of a line have its lexemes and read back as these. -/
theorem Listing.settled_settle {table : Keyword.Table} (law : table.Lawful) {body : List Char}
    (h : Inline (Text.trim body)) :
    Settled table body (settle table (start (ofText table (Text.trim body)))).1 := by
  obtain ⟨hculprit, hlexemes⟩ := settle_spec table (start (ofText table (Text.trim body)))
  rw [map_lexeme_start] at hlexemes
  have ofLine := ofLine_of_ofText law h hlexemes
  have hreads := Listing.difference?_eq_none law ofLine hculprit
  refine ⟨hlexemes, ofLine, hreads, isTrimmed_render law ofLine hreads ?_⟩
  rw [hlexemes, (ofText_spec law (Text.trim body)).2.2]
  exact Folding.endsBlank_kept (Text.isTrimmed_trim body).right .code []

/-- A listing carries the number of the line in front of its body. -/
theorem split_reformatLine {table : Keyword.Table} (law : table.Lawful) {line body : List Char}
    {number : Option LineNumber} (h : Inline line)
    (hsplit : LineNumber.split (Text.trim line) = (number, body)) :
    let entries := (Listing.settle table (Listing.start (ofText table (Text.trim body)))).1
    Text.IsTrimmed (reformatLine table line) ∧
      ∃ blanks, (∀ c ∈ blanks, Text.isBlank c = true) ∧
        LineNumber.split (reformatLine table line) =
          (number, blanks ++ Listing.render table entries) := by
  intro entries
  have settled := Listing.settled_settle law (Listing.inline_body_of_split h hsplit)
  rw [reformatLine_eq hsplit]
  refine Listing.split_label hsplit ?_ settled.isTrimmed ?_
  · rw [Listing.takeWhile_isDigit_render law settled.ofLine, settled.lexemes_eq,
      (ofText_spec law (Text.trim body)).2.2, Folding.content_kept, Text.content_trim]
  · exact (Listing.render_eq_nil_iff law settled.ofLine).symm

/-- Reformatting a line again changes nothing. -/
theorem reformatLine_reformatLine {table : Keyword.Table} (law : table.Lawful) {line : List Char}
    (h : Inline line) :
    reformatLine table (reformatLine table line) = reformatLine table line := by
  cases hsplit : LineNumber.split (Text.trim line) with
  | mk number body =>
  have settled := Listing.settled_settle law (Listing.inline_body_of_split h hsplit)
  obtain ⟨whole, blanks, hblanks, hsplit'⟩ := split_reformatLine law h hsplit
  rw [← whole.trim_eq] at hsplit'
  have hbody := Text.trim_blanks_append hblanks settled.isTrimmed
  have mirrored := Listing.mirrored_settle law
    (settled.ofLine.congr ((Listing.map_lexeme_start _).trans settled.lexemes_eq.symm))
  rw [reformatLine_eq hsplit', hbody, reformatLine_eq hsplit]
  exact congr (congrArg HAppend.hAppend (mirrored.label_eq number)) (mirrored.renderAfter_eq none)

/-! ### Terminators -/

theorem LineNumber.inline_text (number : LineNumber) : Inline number.text := fun c hc =>
  not_terminator_of_isPlain (isPlain_of_isNumeralChar
    (isNumeralChar_of_digits (isDigit_of_mem_text number) c hc)).1

theorem Listing.inline_label (number : Option LineNumber) (entries : List Entry) :
    Inline (label number entries) := by
  intro c hc
  cases number with
  | none => contradiction
  | some number =>
    rcases List.mem_append.mp hc with hc | hc
    · exact number.inline_text c hc
    · split at hc
      · contradiction
      · rw [List.mem_singleton.mp hc]
        decide

theorem Listing.inline_spelling {table : Keyword.Table} (law : table.Lawful) {entry : Entry}
    {place : Place} {rest : List Char} (first : Opens table place entry.lexeme rest)
    (h : Inline entry.lexeme.text) : Inline (entry.spelling table) := by
  rcases spelling_eq_or_mem law first with heq | ⟨keyword, hk, -, hmem⟩
  · rwa [heq]
  · intro c hc
    have hspelling := (law.regular hk).isSpellingChar_of_mem hmem c hc
    exact not_terminator_of_isPlain (isPlain_of_isSpellingChar hspelling).1

theorem inline_of_content {text : List Char} (h : Inline (Text.content text)) : Inline text := by
  intro c hc
  cases hblank : Text.isBlank c with
  | true =>
    simp only [Text.isBlank, Bool.or_eq_true, beq_iff_eq] at hblank
    rcases hblank with rfl | rfl <;> decide
  | false => exact h c (List.mem_filter.mpr ⟨hc, by simp [hblank]⟩)

theorem Listing.inline_listed {table : Keyword.Table} (law : table.Lawful) {entries : List Entry}
    {place : Place} (scans : Scans table place (entries.map (·.lexeme)))
    (h : Inline (written (entries.map (·.lexeme)))) :
    Inline (written (entries.map (Entry.listed table))) := by
  induction entries generalizing place with
  | nil => exact h
  | cons entry entries ih =>
    rw [List.map_cons, written_cons] at h
    cases scans with
    | cons first others =>
      intro c hc
      rw [List.map_cons, written_cons, List.mem_append] at hc
      rcases hc with hc | hc
      · exact inline_spelling law first (fun d hd => h d (List.mem_append_left _ hd)) c hc
      · exact ih others (fun d hd => h d (List.mem_append_right _ hd)) c hc

/-- A line stays one line. -/
theorem inline_reformatLine {table : Keyword.Table} (law : table.Lawful) {line : List Char}
    (h : Inline line) : Inline (reformatLine table line) := by
  cases hsplit : LineNumber.split (Text.trim line) with
  | mk number body =>
  have line := (Listing.settled_settle law (Listing.inline_body_of_split h hsplit)).ofLine
  rw [reformatLine_eq hsplit]
  refine inline_of_content fun c hc => ?_
  rw [Text.content_append, List.mem_append] at hc
  rcases hc with hc | hc
  · exact Listing.inline_label number _ c (List.mem_of_mem_filter hc)
  · rw [Listing.render, Listing.content_renderAfter law (line.lineFrom law)] at hc
    exact Listing.inline_listed law line.scans line.inline c (List.mem_of_mem_filter hc)

/-- Reformatting a program again changes nothing, whatever the text of the program is. -/
theorem reformat_reformat (tiers : List Tier) (ending : LineEnding) (program : List Char) :
    let table := Keyword.Table.ofTiers tiers
    reformat table ending (reformat table ending program) = reformat table ending program := by
  intro table
  have law : table.Lawful := Keyword.Table.lawful_ofTiers tiers
  refine Program.join_map_split_join_map (inline_reformatLine law) (fun h _ => ?_) program ending
  rw [reformatLine_reformatLine law h, ite_self]

end PocketBasic
