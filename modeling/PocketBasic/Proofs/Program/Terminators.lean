import PocketBasic.Proofs.Lexeme.Terminated
import PocketBasic.Proofs.Program.Lines
import PocketBasic.Proofs.Token.Lexemes

/-! Lines of tokens. Cutting a program into lines and tokenizing these gives the tokens between the
line ends of the program, with one exception: blanks between a carriage return and a line feed are
folded away, so that the tokens have one line end where the program has two
(`splitOnP_lexemes_iff`). -/

namespace PocketBasic.Program

open Lexeme

variable {table : Keyword.Table} {line text rest : List Char}

/-- Blanks part a carriage return of the text from a line feed. -/
def PartsTerminator (text : List Char) : Prop :=
  ∃ before blanks after, text = before ++ '\r' :: (blanks ++ '\n' :: after) ∧ blanks ≠ [] ∧
    ∀ c ∈ blanks, Text.isBlank c = true

theorem exists_blanks_append {c : Char} (h : (Text.content text).head? = some c) :
    ∃ blanks after, text = blanks ++ c :: after ∧ ∀ c ∈ blanks, Text.isBlank c = true := by
  obtain ⟨blanks, hblanks, heq⟩ := Text.exists_trimLeft text
  rw [← Text.content_trimLeft] at h
  cases hleft : Text.trimLeft text with
  | nil => simp [hleft] at h
  | cons d after =>
    rw [hleft, Text.content_cons_of_not_blank (Text.not_blank_of_trimLeft hleft)] at h
    obtain rfl := Option.some.inj h
    exact ⟨blanks, after, hleft ▸ heq, hblanks⟩

theorem partsTerminator_cons {c : Char} :
    PartsTerminator (c :: rest) ↔
      (c = '\r' ∧ rest.head? ≠ some '\n' ∧ (Text.content rest).head? = some '\n') ∨
        PartsTerminator rest := by
  constructor
  · rintro ⟨before, blanks, after, heq, hne, hblanks⟩
    cases before with
    | nil =>
      obtain ⟨rfl, rfl⟩ := List.cons.inj heq
      refine .inl ⟨rfl, ?_, ?_⟩
      · obtain ⟨d, others, rfl⟩ := List.exists_cons_of_ne_nil hne
        rintro h
        obtain rfl := Option.some.inj h
        exact absurd (hblanks _ List.mem_cons_self) (by decide)
      · rw [Text.content_append, Text.content_eq_nil_iff.mpr hblanks,
          Text.content_cons_of_not_blank (by decide)]
        rfl
    | cons d before =>
      obtain ⟨rfl, rfl⟩ := List.cons.inj heq
      exact .inr ⟨before, blanks, after, rfl, hne, hblanks⟩
  · rintro (⟨rfl, hhead, hcontent⟩ | ⟨before, blanks, after, rfl, hne, hblanks⟩)
    · obtain ⟨blanks, after, rfl, hblanks⟩ := exists_blanks_append hcontent
      refine ⟨[], blanks, after, rfl, ?_, hblanks⟩
      rintro rfl
      exact hhead rfl
    · exact ⟨c :: before, blanks, after, rfl, hne, hblanks⟩

theorem partsTerminator_append (h : Inline line) :
    PartsTerminator (line ++ text) ↔ PartsTerminator text := by
  induction line with
  | nil => rfl
  | cons c line ih =>
    have hc : c ≠ '\r' := by
      rintro rfl
      exact absurd (h '\r' List.mem_cons_self) (by decide)
    rw [List.cons_append, partsTerminator_cons, ih fun d hd => h d (List.mem_cons_of_mem _ hd)]
    simp [hc]

theorem not_partsTerminator (h : Inline text) : ¬ PartsTerminator text := by
  rintro ⟨before, blanks, after, rfl, -⟩
  exact absurd (h '\r' (by simp)) (by decide)

/-- A line ending that looks the same without blanks parts nothing. -/
theorem partsTerminator_ending {ending : LineEnding}
    (h : ending = .cr → (Text.content rest).head? ≠ some '\n') :
    PartsTerminator (ending.text ++ rest) ↔ PartsTerminator rest := by
  cases ending with
  | crlf => simp [LineEnding.text, partsTerminator_cons]
  | cr => simp [LineEnding.text, partsTerminator_cons, h rfl]
  | lf => simp [LineEnding.text, partsTerminator_cons]

/-! ### Lines of lexemes -/

/-- The lexemes of a line have no line end among them. -/
theorem splitOnP_ofText_append (law : table.Lawful) (h : Inline line) {ending : LineEnding}
    (hrest : ending = .cr → (Text.content rest).head? ≠ some '\n') :
    (ofText table (line ++ (ending.text ++ rest))).splitOnP (·.kind == .newline) =
      ofText table line :: (ofText table rest).splitOnP (·.kind == .newline) := by
  rw [ofText_terminated law h hrest]
  refine List.splitOnP_append_cons_of_forall_mem (fun lexeme hmem => ?_) _ rfl _
  simpa using onLine_ofText law h lexeme hmem

/-- Blanks between a carriage return and a line feed are not read. -/
theorem ofText_parted {blanks after : List Char} (hblanks : ∀ c ∈ blanks, Text.isBlank c = true) :
    ofText table (line ++ '\r' :: (blanks ++ '\n' :: after)) =
      ofText table (line ++ '\r' :: '\n' :: after) := by
  rw [ofText, ofText, Folding.text_fold, Folding.text_fold,
    Folding.kept_terminated (e := '\r') rfl, Folding.kept_terminated (e := '\r') rfl,
    Folding.kept_blanks_append hblanks]

/-- A carriage return and a line feed that blanks part are one line end for the lexemes, and the
blank line between them is lost. -/
theorem splitOnP_ofText_parted (law : table.Lawful) (h : Inline line) {blanks after : List Char}
    (hblanks : ∀ c ∈ blanks, Text.isBlank c = true) :
    (ofText table (line ++ '\r' :: (blanks ++ '\n' :: after))).splitOnP (·.kind == .newline) =
      ofText table line :: (ofText table after).splitOnP (·.kind == .newline) := by
  rw [ofText_parted hblanks]
  have hending : LineEnding.crlf = .cr → (Text.content after).head? ≠ some '\n' := nofun
  exact splitOnP_ofText_append law h hending

/-- The lexemes between the line ends of a text are those of its lines, unless blanks part a line
ending. Then there are fewer lines of lexemes than there are lines. -/
theorem splitOnP_ofText (law : table.Lawful) (text : List Char) :
    let lines := (ofText table text).splitOnP (·.kind == .newline)
    (¬ PartsTerminator text → lines = (cutLines text).map (ofText table)) ∧
      (PartsTerminator text → lines.length < (cutLines text).length) := by
  induction hlength : text.length using Nat.strongRecOn generalizing text with
  | ind length ih =>
  rcases exists_line text with h | ⟨line, ending, rest, rfl, h, hrest⟩
  · rw [cutLines_of_inline h]
    refine ⟨fun _ => List.splitOnP_eq_singleton fun lexeme hmem => ?_, fun hparts => ?_⟩
    · simpa using onLine_ofText law h lexeme hmem
    · exact absurd hparts (not_partsTerminator h)
  · have hending : 0 < ending.text.length := by cases ending <;> decide
    simp only [List.length_append] at hlength
    rw [cutLines_append h ending hrest]
    by_cases hcr : ending = .cr ∧ (Text.content rest).head? = some '\n'
    · obtain ⟨rfl, hcontent⟩ := hcr
      have hparts : PartsTerminator (line ++ (LineEnding.cr.text ++ rest)) := by
        rw [partsTerminator_append h]
        exact partsTerminator_cons.mpr (.inl ⟨rfl, hrest rfl, hcontent⟩)
      refine ⟨fun hnot => absurd hparts hnot, fun _ => ?_⟩
      obtain ⟨blanks, after, rfl, hblanks⟩ := exists_blanks_append hcontent
      obtain ⟨heq, hlt⟩ := ih after.length (by simp at hlength; omega) after rfl
      have hlf : cutLines (blanks ++ (LineEnding.lf.text ++ after)) = blanks :: cutLines after :=
        cutLines_append (inline_of_blank hblanks) .lf (by simp)
      simp only [LineEnding.text, List.cons_append, List.nil_append] at hlf ⊢
      rw [splitOnP_ofText_parted law h hblanks, hlf]
      simp only [List.length_cons]
      by_cases hparts' : PartsTerminator after
      · have := hlt hparts'
        omega
      · rw [heq hparts', List.length_map]
        omega
    · have hcontent : ending = .cr → (Text.content rest).head? ≠ some '\n' :=
        fun heq hhead => hcr ⟨heq, hhead⟩
      obtain ⟨heq, hlt⟩ := ih rest.length (by omega) rest rfl
      rw [partsTerminator_append h, partsTerminator_ending hcontent,
        splitOnP_ofText_append law h hcontent]
      refine ⟨fun hnot => by rw [heq hnot, List.map_cons], fun hparts => ?_⟩
      simpa using hlt hparts

/-- The tokens between the line ends of a program are the tokens of its lines if and only if no
blanks part a carriage return of the program from a line feed. -/
theorem splitOnP_lexemes_iff (tiers : List Tier) (program : List Char) (fallback : LineEnding) :
    let table := Keyword.Table.ofTiers tiers
    (Token.lexemes table program).splitOnP (·.kind == .newline) =
        (split program fallback).lines.map (Token.lexemes table) ↔
      ¬ PartsTerminator program := by
  intro table
  have law : table.Lawful := Keyword.Table.lawful_ofTiers tiers
  have hlexemes : Token.lexemes table = ofText table := funext (Token.lexemes_eq law)
  obtain ⟨heq, hlt⟩ := splitOnP_ofText law program
  rw [hlexemes]
  refine ⟨fun hlines hparts => ?_, heq⟩
  have hlength := congrArg List.length hlines
  rw [List.length_map] at hlength
  exact Nat.ne_of_lt (hlt hparts) hlength

/-- A blank line that a carriage return starts and a line feed ends is lost. -/
theorem splitOnP_lexemes_parted :
    let table := Keyword.Table.ofTiers [.core]
    ¬ (Token.lexemes table ['\r', ' ', '\n']).splitOnP (·.kind == .newline) =
      (split ['\r', ' ', '\n'] .lf).lines.map (Token.lexemes table) := by
  decide +kernel

end PocketBasic.Program
