import PocketBasic.Proofs.Lexeme.Modes
import PocketBasic.Token.Basic

/-! The lexemes of tokens. Spans aside, the tokens of a text are its lexemes, and a text of blanks
alone, which has none, is a token of its own. -/

namespace PocketBasic

namespace Lexeme

variable {table : Keyword.Table} {place : Place} {lexeme : Lexeme} {lexemes : List Lexeme}
  {rest : List Char}

theorem Opens.kind_ne_blank (first : Opens table place lexeme rest) : lexeme.kind ≠ .blank := by
  cases first with
  | crlf | cr | lf | remark | lineNumber | number | fractional | string | comment | rem | keyword
    | pair | mark | identifier => simp

theorem Scans.kind_ne_blank (scans : Scans table place lexemes) :
    ∀ lexeme ∈ lexemes, lexeme.kind ≠ .blank := by
  induction scans with
  | nil => exact fun _ hmem => absurd hmem List.not_mem_nil
  | cons first others ih =>
    intro other hmem
    rcases List.mem_cons.mp hmem with rfl | hmem
    · exact first.kind_ne_blank
    · exact ih other hmem

end Lexeme

namespace Token

variable {table : Keyword.Table} {text : List Char}

/-- The lexemes of the tokens of a text. A text of blanks alone has none. -/
def lexemes (table : Keyword.Table) (text : List Char) : List Lexeme :=
  ((tokenize table text).filter (·.kind != .blank)).map (·.toLexeme)

theorem map_toLexeme_spread (start finish : Nat) (lexemes : List Lexeme)
    (marks : List Folding.Mark) :
    (spread start finish lexemes marks).map (·.toLexeme) = lexemes := by
  fun_induction spread start finish lexemes marks with
  | case1 => rfl
  | case2 => rfl
  | case3 start lexeme lexemes marks _ count stop ih => rw [List.map_cons, ih]

theorem map_toLexeme_tokenize (h : Lexeme.ofText table text ≠ []) :
    (tokenize table text).map (·.toLexeme) = Lexeme.ofText table text := by
  rw [Lexeme.ofText] at h ⊢
  rw [tokenize]
  split
  next hnil => exact absurd hnil h
  next => exact map_toLexeme_spread ..

@[simp] theorem tokenize_nil (table : Keyword.Table) : tokenize table [] = [] := by
  rw [tokenize, Folding.fold, Folding.foldFrom]
  simp [Folding.text, Lexeme.scan]

/-- A text without lexemes is blank. -/
theorem content_eq_nil_of_ofText (law : table.Lawful) (h : Lexeme.ofText table text = []) :
    Text.content text = [] := by
  have hwritten := (Lexeme.ofText_spec law text).2.2
  rw [h] at hwritten
  rw [← Folding.content_kept .code text [], ← hwritten]
  rfl

/-- The tokens of a text that is not blank at its ends are its lexemes. -/
theorem map_toLexeme_tokenize_of_isTrimmed (law : table.Lawful) (h : Text.IsTrimmed text) :
    (tokenize table text).map (·.toLexeme) = Lexeme.ofText table text := by
  by_cases hnil : Lexeme.ofText table text = []
  · rw [h.eq_nil_of_content (content_eq_nil_of_ofText law hnil), tokenize_nil]
    simp [Lexeme.ofText, Folding.fold, Folding.foldFrom, Folding.text, Lexeme.scan]
  · exact map_toLexeme_tokenize hnil

/-- The tokens of a text are its lexemes, blanks apart. -/
theorem lexemes_eq (law : table.Lawful) (text : List Char) :
    lexemes table text = Lexeme.ofText table text := by
  by_cases hnil : Lexeme.ofText table text = []
  · rw [hnil, lexemes, tokenize]
    rw [Lexeme.ofText] at hnil
    rw [hnil]
    by_cases htext : text = []
    · simp [htext]
    · simp [htext]
  · have hlexemes := map_toLexeme_tokenize hnil
    have hne : ∀ token ∈ tokenize table text, (token.kind != .blank) = true := by
      intro token hmem
      obtain ⟨scans, -⟩ := Lexeme.ofText_spec law text
      rw [← hlexemes] at scans
      simpa using scans.kind_ne_blank token.toLexeme (List.mem_map_of_mem hmem)
    rw [lexemes, List.filter_eq_self.mpr hne, hlexemes]

end Token

end PocketBasic
