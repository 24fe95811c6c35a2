import PocketBasic.Proofs.Lexeme.Clashes
import PocketBasic.Proofs.Token.Lexemes

/-! What the compact listing of a line says. It says what the line says unless two of its lexemes
clash, and then it says something else: the text could only be cut into the same lexemes where the
lexemes of the line are. -/

namespace PocketBasic

open Lexeme

/-- What a lexeme says: the name of its keyword, or its text. The blanks in front of a remark are
part of what it says. -/
def Lexeme.saying (table : Keyword.Table) (lexeme : Lexeme) : Reading where
  kind := lexeme.kind
  text := (lexeme.keyword? table).elim lexeme.text Keyword.name

/-- What the tokens of a text say. The token of a text of blanks alone says nothing. -/
def Token.sayings (table : Keyword.Table) (text : List Char) : List Reading :=
  ((tokenize table text).filter (·.kind != .blank)).map (·.saying table)

namespace Lexeme

variable {table : Keyword.Table} {place place' : Place} {a b lexeme : Lexeme}
  {as bs lexemes : List Lexeme} {rest rest' text : List Char}

/-- The tokens of a text say what its lexemes say. -/
theorem sayings_eq (law : table.Lawful) (text : List Char) :
    Token.sayings table text = (ofText table text).map (saying table) := by
  rw [← Token.lexemes_eq law, Token.sayings, Token.lexemes, List.map_map]
  rfl

/-! ### Lexemes that say the same -/

/-- Lexemes that say the same spell the same keyword, if they spell one. -/
theorem Opens.keyword?_eq_of_saying (law : table.Lawful) (ha : Opens table place a rest)
    (hb : Opens table place' b rest') (h : a.saying table = b.saying table) :
    a.keyword? table = b.keyword? table := by
  have hkind : a.kind = b.kind := congrArg Reading.kind h
  have htext := congrArg Reading.text h
  refine ha.keyword?_eq_of_reading law hb (reading_congr hkind (fun _ => htext) fun hne => ?_)
  simpa [saying, keyword?_of_kind_ne hne, keyword?_of_kind_ne (hkind ▸ hne)] using htext

/-- A lexeme that says what another one says is the keyword of the latter in some spelling, or the
same lexeme. -/
theorem Opens.compacted_cases (terse : table.Terse) (ha : Opens table place a rest)
    (hb : Opens table place' b rest') (h : a.saying table = b.saying table) :
    (∃ keyword ∈ table.keywords, a.text ∈ keyword.spellings ∧
      (compacted table b).text ∈ keyword.spellings) ∨ a = compacted table b := by
  have hkeyword := ha.keyword?_eq_of_saying terse.toLawful hb h
  have hkind : a.kind = b.kind := congrArg Reading.kind h
  have htext := congrArg Reading.text h
  cases hfound : b.keyword? table with
  | some keyword =>
    obtain ⟨hk, hmem⟩ := ha.keyword?_eq_some terse.toLawful (hkeyword.trans hfound)
    refine .inl ⟨keyword, hk, hmem, ?_⟩
    rw [compacted, compactForm_of_some hfound]
    exact terse.compactForm_mem hk
  | none =>
    right
    simp only [saying, hkeyword, hfound, Option.elim_none] at htext
    rw [compacted, compactForm_of_none hfound, ← htext, ← hkind]

theorem Opens.alike_compacted (terse : table.Terse) (ha : Opens table place a rest)
    (hb : Opens table place' b rest') (h : a.saying table = b.saying table) :
    Alike table a (compacted table b) := by
  rcases ha.compacted_cases terse hb h with ⟨keyword, hk, hmem, hmem'⟩ | rfl
  · exact .spelling hk hmem hmem'
  · exact .refl _

theorem Opens.eq_compacted (terse : table.Terse) (ha : Opens table place a rest)
    (hb : Opens table place' b rest') (h : a.saying table = b.saying table)
    (hcontent : Text.content a.text = Text.content (compacted table b).text) :
    a = compacted table b := by
  rcases ha.compacted_cases terse hb h with ⟨keyword, hk, hmem, hmem'⟩ | heq
  · have reg := terse.regular hk
    rw [reg.content_eq hmem, reg.content_eq hmem'] at hcontent
    have hkind : a.kind = b.kind := congrArg Reading.kind h
    cases a
    rw [compacted] at hcontent ⊢
    cases hkind
    cases hcontent
    rfl
  · exact heq

theorem Scans.alike_compacted (terse : table.Terse) (ha : Scans table place as)
    (hb : Scans table place' bs) (h : as.map (saying table) = bs.map (saying table)) :
    List.Forall₂ (Alike table) as (bs.map (compacted table)) := by
  rw [← List.map_id as] at ha h
  exact List.forall₂_map_right_iff.mpr (ha.forall₂_of_map_eq (Opens.alike_compacted terse) hb h)

/-- Lexemes that say the same and are written as the compact spellings are the compact
spellings. -/
theorem Scans.eq_compacted (terse : table.Terse) (ha : Scans table place as)
    (hb : Scans table place' bs) (h : as.map (saying table) = bs.map (saying table))
    (hwritten : Text.content (written as) = Text.content (written (bs.map (compacted table)))) :
    as = bs.map (compacted table) := by
  have contents := contents_eq terse.toLawful (ha.alike_compacted terse hb h) hwritten
  rw [List.forall₂_map_right_iff] at contents
  rw [← List.map_id as] at ha h
  have same := ha.forall₂_of_map_eq (Opens.eq_compacted terse) hb h
  rw [← List.forall₂_eq_eq_eq, List.forall₂_map_right_iff]
  exact same.mp (fun _ _ hsame hcontent => hsame hcontent) contents

/-! ### Compact listings -/

theorem Scans.folded_compacted (terse : table.Terse) (scans : Scans table place lexemes)
    (folded : Folded lexemes) : Folded (lexemes.map (compacted table)) := by
  induction scans with
  | nil => exact folded
  | @cons place lexeme lexemes first others ih =>
    intro other hmem hcode c hc
    rcases List.mem_cons.mp hmem with rfl | hmem
    · rcases first.compactForm_eq_or terse.toLawful with heq | ⟨keyword, h⟩
      · rw [compacted_eq heq] at hcode hc
        exact folded.head hcode c hc
      · have hform := terse.compactForm_mem h.mem
        rw [compacted, h.compactForm_eq] at hc
        exact (terse.regular h.mem).not_blank hform c hc
    · exact ih folded.tail other hmem hcode c hc

/-- The compact spelling of a keyword is one of its spellings. -/
theorem Opens.keyword?_compacted (terse : table.Terse) (first : Opens table place lexeme rest) :
    (compacted table lexeme).keyword? table = lexeme.keyword? table := by
  rcases first.compactForm_eq_or terse.toLawful with heq | ⟨keyword, h⟩
  · rw [compacted_eq heq]
  · have hkind := kind_of_keyword? h.found
    rw [h.found, keyword?_of_kind (a := compacted table lexeme) hkind, compacted, h.compactForm_eq]
    exact terse.lookup?_eq h.mem (terse.compactForm_mem h.mem)

theorem Opens.saying_compacted (terse : table.Terse) (first : Opens table place lexeme rest) :
    (compacted table lexeme).saying table = lexeme.saying table := by
  rw [saying, saying, first.keyword?_compacted terse]
  cases hfound : lexeme.keyword? table with
  | none => rw [compacted_eq (compactForm_of_none hfound)]
  | some keyword => rfl

/-- The compact spelling of a lexeme is not shortened again. -/
theorem Opens.compactForm_compacted (terse : table.Terse) (first : Opens table place lexeme rest) :
    (compacted table lexeme).compactForm table = (compacted table lexeme).text := by
  rw [compactForm, first.keyword?_compacted terse]
  cases hfound : lexeme.keyword? table with
  | none => rfl
  | some keyword => exact (compactForm_of_some hfound).symm

theorem Scans.saying_compacted (terse : table.Terse) (scans : Scans table place lexemes) :
    (lexemes.map (compacted table)).map (saying table) = lexemes.map (saying table) := by
  induction scans with
  | nil => rfl
  | cons first others ih =>
    rw [List.map_cons, List.map_cons, List.map_cons, first.saying_compacted terse, ih]

/-- The compact spellings of lexemes that do not clash are read back. -/
theorem ofText_compacted (terse : table.Terse) (scans : Scans table .lineStart lexemes)
    (folded : Folded lexemes) (clear : ¬ Clashes table lexemes) :
    ofText table (lexemes.flatMap (compactForm table)) = lexemes.map (compacted table) := by
  have compactScans := scans.map_compacted terse clear
  have agrees : Place.lineStart.Agrees .code (written (lexemes.map (compacted table))) := .inl rfl
  apply ofText_eq_of_scans terse.toLawful compactScans
  rw [← written_compacted]
  exact (compactScans.kept_written terse.toLawful (scans.folded_compacted terse folded) agrees).symm

end Lexeme

/-- The compact form of a line is its number and a text that says what its body says if and only
if its lexemes do not clash. -/
theorem sayings_compactLine (tiers : List Tier) (line : List Char) :
    let table := Keyword.Table.ofTiers tiers
    let number := (LineNumber.split line).1
    let body := (LineNumber.split line).2
    let rest := (Lexeme.ofText table body).flatMap (Lexeme.compactForm table)
    compactLine table line = number.elim [] LineNumber.text ++ rest ∧
      (Token.sayings table rest = Token.sayings table body ↔
        ¬ Lexeme.Clashes table (Lexeme.ofText table body)) := by
  intro table number body rest
  refine ⟨rfl, ?_⟩
  have terse : table.Terse := Keyword.Table.terse_ofTiers tiers
  obtain ⟨scans, folded, -⟩ := ofText_spec terse.toLawful body
  rw [sayings_eq terse.toLawful, sayings_eq terse.toLawful]
  constructor
  · intro hsayings clash
    obtain ⟨scans', -, hwritten⟩ := ofText_spec terse.toLawful rest
    have heq := scans'.eq_compacted terse scans hsayings (by
      rw [hwritten, Folding.content_kept, written_compacted])
    exact clash.not_scans terse scans (heq ▸ scans')
  · intro clear
    rw [ofText_compacted terse scans folded clear, scans.saying_compacted terse]

set_option maxRecDepth 10000 in
/-- `SQ` is spelled out in front of `EM`, and `SQREM` is read as `SQ` and a comment. -/
theorem sayings_compactLine_square_root :
    let table := Keyword.Table.ofTiers [.core]
    let line := ['S', 'Q', 'E', 'M']
    Inline line ∧ LineNumber.split line = (none, line) ∧
      compactLine table line = ['S', 'Q', 'R', 'E', 'M'] ∧
      Token.sayings table ['S', 'Q', 'R', 'E', 'M'] ≠ Token.sayings table line := by
  decide +kernel

end PocketBasic
