import PocketBasic.Proofs.Listing.CompactLine
import PocketBasic.Proofs.Listing.Idempotent

/-! Programs that are spelled in full. Compacting one abbreviates keywords and spells none out, so
nothing clashes, and the compact form is read as the same lexemes. Its entries are listed as those
of the line are (`mirrored_compacted`), and reading the listing back finds nobody to blame, since
no keyword of the line is expanded. So the compact program has the listing of the program
(`reformat_compact`). -/

namespace PocketBasic

open Lexeme

/-- The lexeme is no abbreviation: if it is a keyword, it is the full name of one, or a `REM`. -/
def Lexeme.isSpelledInFull (table : Keyword.Table) (lexeme : Lexeme) : Bool :=
  lexeme.kind != .keyword || lexeme.isRem ||
    (table.lookup? lexeme.text).any (·.name == lexeme.text)

namespace Lexeme

variable {table : Keyword.Table} {place : Place} {lexeme : Lexeme} {lexemes : List Lexeme}
  {keyword : Keyword} {rest : List Char}

theorem name_eq_of_isSpelledInFull (law : table.Lawful) (h : lexeme.isSpelledInFull table = true)
    (found : lexeme.keyword? table = some keyword) : keyword.name = lexeme.text := by
  have hkind := kind_of_keyword? found
  rw [keyword?_of_kind hkind] at found
  simp only [isSpelledInFull, hkind, bne_self_eq_false, Bool.false_or, Bool.or_eq_true, found,
    Option.any_some, beq_iff_eq] at h
  rcases h with hrem | hname
  · obtain ⟨-, htext⟩ := isRem_iff.mp hrem
    obtain ⟨hk, hmem⟩ := Keyword.Table.mem_of_lookup? found
    rw [htext, upper_of_isSpellingChar (by decide)] at hmem
    rw [htext]
    exact ((law.regular hk).eq_remWord_of_isPrefix hmem List.prefix_rfl).2
  · exact hname

/-- What is spelled in full is listed as it is typed. -/
theorem not_expanded_of_isSpelledInFull (law : table.Lawful)
    (h : lexeme.isSpelledInFull table = true) :
    (⟨lexeme, false⟩ : Listing.Entry).isExpanded table = false := by
  rw [Listing.Entry.isExpanded]
  cases found : lexeme.keyword? table with
  | none => simp
  | some keyword => simp [name_eq_of_isSpelledInFull law h found]

theorem not_spelledOut (law : table.Lawful) (h : lexeme.isSpelledInFull table = true) :
    ¬ SpelledOut table lexeme keyword := fun spelledOut =>
  spelledOut.abbreviated (name_eq_of_isSpelledInFull law h spelledOut.found).symm

/-- Only an abbreviation is spelled out, so lexemes in full do not clash. -/
theorem not_clashes (law : table.Lawful)
    (h : ∀ lexeme ∈ lexemes, lexeme.isSpelledInFull table = true) : ¬ Clashes table lexemes := by
  intro clash
  induction clash with
  | rem spelledOut => exact not_spelledOut law (h _ List.mem_cons_self) spelledOut
  | letter spelledOut =>
    exact not_spelledOut law (h _ (List.mem_cons_of_mem _ List.mem_cons_self)) spelledOut
  | later _ ih => exact ih fun other hmem => h other (List.mem_cons_of_mem _ hmem)

/-- A keyword holds no blanks to trim. -/
theorem mem_of_mem_trimmed (folded : Folded lexemes) (h : lexeme ∈ trimmed lexemes)
    (hkind : lexeme.kind = .keyword) : lexeme ∈ lexemes := by
  fun_induction trimmed lexemes with
  | case1 => exact h
  | case2 => contradiction
  | case3 last _ =>
    obtain rfl := List.mem_singleton.mp h
    have hcode : last.isVerbatim = false := by simp [isVerbatim, show last.kind = .keyword from hkind]
    have hblank := Text.endsBlank_of_not_blank (folded.head hcode)
    rw [Text.trimRight_eq hblank]
    exact List.mem_singleton_self last
  | case4 first next lexemes ih =>
    rcases List.mem_cons.mp h with rfl | h
    · exact List.mem_cons_self
    · exact List.mem_cons_of_mem _ (ih folded.tail h)

theorem isSpelledInFull_trimmed (folded : Folded lexemes)
    (h : ∀ lexeme ∈ lexemes, lexeme.isSpelledInFull table = true) :
    ∀ lexeme ∈ trimmed lexemes, lexeme.isSpelledInFull table = true := by
  intro lexeme hmem
  by_cases hkind : lexeme.kind = .keyword
  · exact h lexeme (mem_of_mem_trimmed folded hmem hkind)
  · simp [isSpelledInFull, hkind]

end Lexeme

namespace Listing

variable {table : Keyword.Table} {place : Place} {lexeme : Lexeme} {lexemes : List Lexeme}
  {rest : List Char}

/-- A lexeme in full mirrors its compact spelling. -/
theorem mirrors_compacted (terse : table.Terse) (first : Opens table place lexeme rest)
    (h : lexeme.isSpelledInFull table = true) :
    Mirrors table ⟨compacted table lexeme, false⟩ ⟨lexeme, false⟩ := by
  have hsaying := congrArg Reading.text (first.saying_compacted terse).symm
  refine ⟨rfl, (first.isRem_compacted terse).symm, ?_, hsaying, fun hexpanded => ?_⟩
  · exact reading_congr rfl (fun _ => hsaying) fun hne => (compactForm_of_kind_ne hne).symm
  · rw [not_expanded_of_isSpelledInFull terse.toLawful h] at hexpanded
    contradiction

/-- Lexemes in full mirror their compact spellings. -/
theorem mirrored_compacted (terse : table.Terse) (scans : Scans table place lexemes)
    (line : OnLine lexemes) (h : ∀ lexeme ∈ lexemes, lexeme.isSpelledInFull table = true) :
    Mirrored table (start (lexemes.map (compacted table))) (start lexemes) := by
  induction scans with
  | nil => exact .nil
  | @cons place lexeme lexemes first others ih =>
    have mirrors := mirrors_compacted terse first (h lexeme List.mem_cons_self)
    by_cases hrem : lexeme.isRem = true
    · have hrem' := (first.isRem_compacted terse).trans hrem
      rcases (Scans.cons first others).eq_nil_or_comment terse.toLawful line hrem with
        rfl | ⟨comment, rfl, hkind, -⟩
      · exact .cons mirrors (fun _ => rfl) .nil
      · have hcomment : compacted table comment = comment :=
          compacted_eq (compactForm_of_kind_ne (by simp [hkind]))
        rw [List.map_cons, List.map_singleton, hcomment]
        exact .remark hrem' hrem hkind hkind rfl
    · have hothers := ih line.tail fun other hmem => h other (List.mem_cons_of_mem _ hmem)
      refine .cons mirrors (fun hrem' => absurd ?_ hrem) hothers
      exact (first.isRem_compacted terse).symm.trans hrem'

theorem settle_of_difference?_eq_none {entries : List Entry}
    (h : difference? table entries = none) : settle table entries = (entries, []) := by
  apply settle_of_none
  rw [culprit?, h, Option.bind_none]

/-- Lexemes in full are listed as their compact spellings are. -/
theorem settle_compacted (terse : table.Terse) (line : OfLine table (start lexemes))
    (h : ∀ lexeme ∈ lexemes, lexeme.isSpelledInFull table = true) :
    Mirrored table (settle table (start (lexemes.map (compacted table)))).1
      (settle table (start lexemes)).1 := by
  have scans := line.scans
  have onLine := line.onLine
  rw [map_lexeme_start] at scans onLine
  have mirrored := mirrored_compacted terse scans onLine h
  have hculprit : culprit? table (start lexemes) = none := by
    have hexpanded : expanded table (start lexemes) = [] := by
      rw [expanded, List.filter_eq_nil_iff]
      intro i _
      rw [start, List.getElem?_map, Option.any_map, Bool.not_eq_true]
      cases hi : lexemes[i]? with
      | none => rfl
      | some lexeme =>
        exact not_expanded_of_isSpelledInFull terse.toLawful (h lexeme (List.mem_of_getElem? hi))
    rw [culprit?, hexpanded]
    cases difference? table (start lexemes) <;> rfl
  have hreads := difference?_eq_none terse.toLawful line hculprit
  rw [settle_of_difference?_eq_none hreads,
    settle_of_difference?_eq_none (mirrored.difference?_eq.symm.trans hreads)]
  exact mirrored

end Listing

/-- Compacting a line that is spelled in full does not change its listing. -/
theorem reformatLine_compactLine {table : Keyword.Table} (terse : table.Terse) {line : List Char}
    (hline : Inline line)
    (h : ∀ lexeme ∈ ofText table (LineNumber.split line).2,
      lexeme.isSpelledInFull table = true) :
    reformatLine table (compactLine table line) = reformatLine table line := by
  have hcompact := split_compactLine terse line
  cases hsplit : LineNumber.split line with
  | mk number body =>
  rw [hsplit] at h hcompact
  have hbody := Listing.inline_of_split hline hsplit
  obtain ⟨scans, folded, -⟩ := ofText_spec terse.toLawful body
  have hlexemes : Lexeme.trimmed
      (ofText table ((ofText table body).flatMap (compactForm table))) =
      (Lexeme.trimmed (ofText table body)).map (compacted table) := by
    rw [ofText_compacted terse scans folded (not_clashes terse.toLawful h),
      scans.map_compacted_trimmed terse folded]
  have ofLine : Listing.OfLine table
      (Listing.start (Lexeme.trimmed (ofText table body))) := by
    rw [← ofText_trim terse.toLawful hbody]
    exact Listing.ofLine_of_ofText terse.toLawful (Listing.inline_trim hbody)
      (Listing.map_lexeme_start _)
  have mirrored := Listing.settle_compacted terse ofLine (isSpelledInFull_trimmed folded h)
  rw [reformatLine_of_split terse.toLawful (inline_compactLine terse hline) hcompact, hlexemes,
    reformatLine_of_split terse.toLawful hline hsplit]
  exact congr (congrArg HAppend.hAppend (mirrored.label_eq number).symm)
    (mirrored.renderAfter_eq none).symm

/-- Compacting a program whose keywords are spelled in full does not change its listing. -/
theorem reformat_compact (tiers : List Tier) (ending : LineEnding) {program : List Char}
    (h : ∀ line ∈ Program.cutLines program,
      ∀ token ∈ Token.tokenize (Keyword.Table.ofTiers tiers) (LineNumber.split line).2,
        token.isSpelledInFull (Keyword.Table.ofTiers tiers) = true) :
    reformat (Keyword.Table.ofTiers tiers) ending
        (compact (Keyword.Table.ofTiers tiers) ending program) =
      reformat (Keyword.Table.ofTiers tiers) ending program := by
  have terse := Keyword.Table.terse_ofTiers tiers
  refine Program.join_map_split_join_map_of_mem (inline_compactLine terse) ?_ ending
  intro line hmem hblank
  rw [isBlankLine_compactLine terse hblank, if_neg Bool.false_ne_true]
  refine reformatLine_compactLine terse (Program.inline_of_mem_cutLines hmem) ?_
  intro lexeme hlexeme
  have hne : ofText (Keyword.Table.ofTiers tiers) (LineNumber.split line).2 ≠ [] := by
    intro hnil
    simp [hnil] at hlexeme
  rw [← Token.map_toLexeme_tokenize hne] at hlexeme
  obtain ⟨token, htoken, rfl⟩ := List.mem_map.mp hlexeme
  exact h line hmem token htoken

set_option maxRecDepth 10000 in
/-- `1PRINTM` and `RESTOREREMX` are compacted to `1P.M` and `RES.REMX`. -/
theorem reformat_compact_restore :
    let table := Keyword.Table.ofTiers [.core]
    let program := ['1', 'P', 'R', 'I', 'N', 'T', 'M', '\r', 'R', 'E', 'S', 'T', 'O', 'R', 'E',
      'R', 'E', 'M', 'X']
    (∀ line ∈ Program.cutLines program,
      ∀ token ∈ Token.tokenize table (LineNumber.split line).2,
        token.isSpelledInFull table = true) ∧
      reformat table .cr (compact table .cr program) = reformat table .cr program :=
  ⟨by decide +kernel, reformat_compact [.core] .cr (by decide +kernel)⟩

end PocketBasic
