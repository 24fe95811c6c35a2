import PocketBasic.Proofs.Listing.CompactLine

/-! The compact form of a listing. A keyword has the same compact spelling whichever spelling it
is listed with (`compactForm_listed`), so compacting undoes what a listing changes, blanks at the
end of the line apart. The one thing that it cannot undo is the space in front of a remark, which
belongs to the remark once it is there (`compactLine_reformatLine`). -/

namespace PocketBasic

open Lexeme

namespace Lexeme

variable {table : Keyword.Table} {place : Place} {lexeme : Lexeme}
  {front lexemes : List Lexeme} {text remark : List Char}

/-- Blanks in front of a text are not read. -/
theorem ofText_blanks_append {blanks : List Char} (h : ∀ c ∈ blanks, Text.isBlank c = true)
    (text : List Char) : ofText table (blanks ++ text) = ofText table text := by
  rw [ofText, ofText, Folding.text_fold, Folding.text_fold, Folding.kept_blanks_append h]

theorem compactForm_remWord (terse : table.Terse) :
    compactForm table ⟨.keyword, remWord⟩ = remWord := by
  have opens : Opens table .inLine ⟨.keyword, remWord⟩ [] := .rem (by decide)
  rcases opens.compactForm_eq_or terse.toLawful with heq | ⟨keyword, respelled⟩
  · exact heq
  · exact absurd (respelled.isRem_eq terse) (by decide)

/-! ### Remarks at the end of a line -/

theorem trimmed_append (front : List Lexeme) (h : lexemes ≠ []) :
    trimmed (front ++ lexemes) = front ++ trimmed lexemes := by
  induction front with
  | nil => rfl
  | cons first front ih =>
    obtain ⟨next, others, hcons⟩ : ∃ next others, front ++ lexemes = next :: others :=
      List.exists_cons_of_ne_nil (by simp [h])
    rw [List.cons_append, hcons, trimmed, ← hcons, ih, List.cons_append]

theorem trimmed_remark (h : Text.trimRight remark ≠ []) :
    trimmed (front ++ [⟨.keyword, remWord⟩, ⟨.comment, remark⟩]) =
      front ++ [⟨.keyword, remWord⟩, ⟨.comment, Text.trimRight remark⟩] := by
  rw [trimmed_append front (by simp), trimmed, trimmed_singleton h]

theorem Scans.remark_ne_nil
    (scans : Scans table place (front ++ [⟨.keyword, remWord⟩, ⟨.comment, remark⟩])) :
    remark ≠ [] := by
  rw [List.append_cons] at scans
  obtain ⟨_, first, -⟩ := scans.exists_cons
  exact (first.comment_cases rfl).1

/-- What is a remark after the blanks at its end are gone was one before. -/
theorem Scans.exists_of_trimmed (law : table.Lawful) (scans : Scans table place lexemes)
    (line : OnLine lexemes)
    (h : Lexeme.trimmed lexemes = front ++ [⟨.keyword, remWord⟩, ⟨.comment, text⟩]) :
    ∃ remark, lexemes = front ++ [⟨.keyword, remWord⟩, ⟨.comment, remark⟩] ∧
      Text.trimRight remark = text := by
  induction scans generalizing front with
  | nil => simp [Lexeme.trimmed] at h
  | @cons place lexeme lexemes first others ih =>
    cases lexemes with
    | nil =>
      have hlength := congrArg List.length h
      rw [Lexeme.trimmed] at hlength
      split at hlength <;> simp at hlength
    | cons next lexemes =>
      rw [Lexeme.trimmed] at h
      cases front with
      | cons other front =>
        obtain ⟨rfl, hothers⟩ := List.cons.inj h
        obtain ⟨remark, heq, htext⟩ := ih line.tail hothers
        exact ⟨remark, by rw [heq]; rfl, htext⟩
      | nil =>
        obtain ⟨rfl, hothers⟩ := List.cons.inj h
        rcases (Scans.cons first others).eq_nil_or_comment law line rfl with
          hnil | ⟨comment, heq, hkind, -⟩
        · cases hnil
        · rw [heq, Lexeme.trimmed] at hothers
          rw [heq]
          split at hothers
          · cases hothers
          · refine ⟨comment.text, by rw [← hkind]; rfl, ?_⟩
            exact congrArg Lexeme.text (List.cons.inj hothers).1

end Lexeme

theorem Text.startsBlank_trimRight {text : List Char} (h : Text.trimRight text ≠ []) :
    Text.startsBlank (Text.trimRight text) = Text.startsBlank text := by
  obtain ⟨blanks, -, heq⟩ := Text.exists_trimRight text
  obtain ⟨c, rest, hcons⟩ := List.exists_cons_of_ne_nil h
  conv => rhs; rw [heq, hcons]
  rw [hcons]
  rfl

theorem Text.trimRight_ne_nil {text : List Char} (hne : text ≠ [])
    (h : Text.startsBlank text = false) : Text.trimRight text ≠ [] := by
  intro hnil
  obtain ⟨c, rest, rfl⟩ := List.exists_cons_of_ne_nil hne
  have hblank := Text.blank_of_trimRight_eq_nil hnil c List.mem_cons_self
  rw [show Text.isBlank c = false from h] at hblank
  contradiction

namespace Listing

variable {table : Keyword.Table} {entry : Entry} {entries : List Entry} {place : Place}

/-- A lexeme has the compact spelling that it has as it is listed. -/
theorem compactForm_listed (law : table.Lawful) {rest : List Char}
    (first : Opens table place entry.lexeme rest) :
    (entry.listed table).compactForm table = entry.lexeme.compactForm table := by
  rw [compactForm, compactForm, keyword?_listed law first]
  cases hfound : entry.lexeme.keyword? table with
  | none => exact spelling_of_none hfound
  | some keyword => rfl

/-- Without a remark, the lexemes of a line have the compact spellings that they have as they are
listed. -/
theorem flatMap_compactForm_relisted (law : table.Lawful) (line : LineFrom table place entries)
    (h : ∀ front remark,
      entries.map (·.lexeme) ≠ front ++ [⟨.keyword, remWord⟩, ⟨.comment, remark⟩]) :
    (relisted table entries).flatMap (compactForm table) =
      (entries.map (·.lexeme)).flatMap (compactForm table) := by
  induction line with
  | nil => rfl
  | rem first _ | comment first _ =>
    rw [relisted_singleton, List.map_singleton, List.flatMap_singleton, List.flatMap_singleton,
      compactForm_listed law first]
  | @remark _ entry comment _ hrem hcomment =>
    refine absurd ?_ (h [] comment.lexeme.text)
    rw [← hcomment, ← eq_of_isRem hrem]
    rfl
  | @code _ entry _ first _ _ hrem _ ih =>
    have hothers := ih fun front remark heq => h (entry.lexeme :: front) remark (by
      rw [List.map_cons, heq]
      rfl)
    rw [relisted_of_code hrem, List.map_cons, List.flatMap_cons, List.flatMap_cons,
      compactForm_listed law first, hothers]

/-- A remark is set off by a space as it is listed, and keeps it. -/
theorem flatMap_compactForm_relisted_remark (terse : table.Terse)
    (line : LineFrom table place entries) {front : List Lexeme} {text : List Char}
    (h : entries.map (·.lexeme) = front ++ [⟨.keyword, remWord⟩, ⟨.comment, text⟩]) :
    (relisted table entries).flatMap (compactForm table) =
      front.flatMap (compactForm table) ++ remWord ++
        (if Text.startsBlank text then [] else [' ']) ++ text := by
  induction line generalizing front with
  | nil => simp at h
  | rem | comment =>
    have hlength := congrArg List.length h
    simp at hlength
  | @remark _ entry comment first hrem hkind =>
    obtain rfl : front = [] := by
      have hlength := congrArg List.length h
      simpa using hlength
    have hentry : entry.lexeme = ⟨.keyword, remWord⟩ := (List.cons.inj h).1
    have hcomment : comment.lexeme = ⟨.comment, text⟩ := List.singleton_inj.mp (List.cons.inj h).2
    rw [relisted_of_rem hrem, List.flatMap_cons, compactForm_listed terse.toLawful first, hentry,
      compactForm_remWord terse, remarked, List.flatMap_singleton, hcomment,
      compactForm_of_kind_ne (by simp), remark, hcomment]
    simp
  | @code _ entry entries first _ _ hrem _ ih =>
    cases front with
    | nil =>
      have hentry : entry.lexeme = ⟨.keyword, remWord⟩ := (List.cons.inj h).1
      rw [hentry] at hrem
      contradiction
    | cons lexeme front =>
      obtain ⟨rfl, hothers⟩ := List.cons.inj h
      rw [relisted_of_code hrem, List.flatMap_cons, List.flatMap_cons,
        compactForm_listed terse.toLawful first, ih hothers]
      simp only [List.append_assoc]

end Listing

section
variable {table : Keyword.Table} {line : List Char}

/-- The compact form of a line without the blanks at its end. -/
theorem trimRight_compactLine (terse : table.Terse) (h : Inline line) :
    Text.trimRight (compactLine table line) =
      (LineNumber.split line).1.elim [] LineNumber.text ++
        (Lexeme.trimmed (ofText table (LineNumber.split line).2)).flatMap (compactForm table) := by
  have hbody := Listing.inline_split h
  obtain ⟨scans, folded, -⟩ := ofText_spec terse.toLawful (LineNumber.split line).2
  rw [scans.flatMap_compactForm_trimmed terse folded (onLine_ofText terse.toLawful hbody),
    compactLine_eq (Prod.eta _).symm]
  refine Text.trimRight_append ?_ _
  generalize (LineNumber.split line).1 = number
  cases number with
  | none => rfl
  | some number =>
    exact Text.endsBlank_of_not_blank number.not_blank_of_mem_text

/-- The listing of a line is compacted lexeme by lexeme, as it is listed. -/
theorem exists_compactLine_reformatLine (terse : table.Terse) (h : Inline line) :
    ∃ entries, entries.map (·.lexeme) = Lexeme.trimmed (ofText table (LineNumber.split line).2) ∧
      Listing.OfLine table entries ∧
      compactLine table (reformatLine table line) =
        (LineNumber.split line).1.elim [] LineNumber.text ++
          (Listing.relisted table entries).flatMap (compactForm table) := by
  cases hsplit : LineNumber.split line with
  | mk number body =>
  have hbody := Listing.inline_of_split h hsplit
  obtain ⟨typed, htyped, htrim⟩ := LineNumber.split_trim hsplit
  have settled := Listing.settled_settle terse.toLawful (Listing.inline_body_of_split h htyped)
  obtain ⟨-, blanks, hblanks, hlisting⟩ := split_reformatLine terse.toLawful h htyped
  refine ⟨_, ?_, settled.ofLine, ?_⟩
  · rw [settled.lexemes_eq, htrim, ofText_trim terse.toLawful hbody]
  · rw [compactLine_eq hlisting, ofText_blanks_append hblanks,
      Listing.ofText_render terse.toLawful settled.ofLine settled.difference?_eq_none]

end

/-- Listing a line first does not change its compact form, blanks at the end of it apart, unless
the line ends in a remark that follows its `REM` without a blank: such a remark is set off by one
space. -/
theorem compactLine_reformatLine (tiers : List Tier) {line : List Char} (h : Inline line) :
    let table := Keyword.Table.ofTiers tiers
    let lexemes := ofText table (LineNumber.split line).2
    (∀ front remark, lexemes = front ++ [⟨.keyword, remWord⟩, ⟨.comment, remark⟩] →
      Text.startsBlank remark = false →
      let before := (LineNumber.split line).1.elim [] LineNumber.text ++
        front.flatMap (compactForm table) ++ remWord
      Text.trimRight remark ≠ [] ∧
        Text.trimRight (compactLine table line) = before ++ Text.trimRight remark ∧
        compactLine table (reformatLine table line) = before ++ ' ' :: Text.trimRight remark) ∧
    ((∀ front remark, lexemes = front ++ [⟨.keyword, remWord⟩, ⟨.comment, remark⟩] →
      Text.startsBlank remark = true) →
      compactLine table (reformatLine table line) = Text.trimRight (compactLine table line)) := by
  intro table lexemes
  have terse : table.Terse := Keyword.Table.terse_ofTiers tiers
  have onLine : OnLine lexemes := onLine_ofText terse.toLawful (Listing.inline_split h)
  have scans : Scans table .lineStart lexemes := (ofText_spec terse.toLawful _).1
  obtain ⟨entries, hentries, ofLine, hlisting⟩ := exists_compactLine_reformatLine terse h
  rw [hlisting, trimRight_compactLine terse h]
  refine ⟨fun front remark hlexemes hstart => ?_, fun hspaced => ?_⟩
  · have hne := Text.trimRight_ne_nil (Scans.remark_ne_nil (hlexemes ▸ scans)) hstart
    rw [show ofText table _ = _ from hlexemes, trimmed_remark hne] at hentries ⊢
    refine ⟨hne, ?_, ?_⟩
    · simp [compactForm_remWord terse, compactForm_of_kind_ne]
    · rw [Listing.flatMap_compactForm_relisted_remark terse (ofLine.lineFrom terse.toLawful) hentries,
        Text.startsBlank_trimRight hne, hstart]
      simp
  · refine congrArg (_ ++ ·) ?_
    rw [← hentries]
    by_cases hremark : ∃ front text,
        entries.map (·.lexeme) = front ++ [⟨.keyword, remWord⟩, ⟨.comment, text⟩]
    · obtain ⟨front, text, heq⟩ := hremark
      obtain ⟨remark, hlexemes, rfl⟩ := scans.exists_of_trimmed terse.toLawful onLine
        (hentries.symm.trans heq)
      have hne := Scans.remark_ne_nil (heq ▸ ofLine.scans)
      rw [Listing.flatMap_compactForm_relisted_remark terse (ofLine.lineFrom terse.toLawful) heq,
        Text.startsBlank_trimRight hne, hspaced front remark hlexemes, heq]
      simp [compactForm_remWord terse, compactForm_of_kind_ne]
    · refine Listing.flatMap_compactForm_relisted terse.toLawful (ofLine.lineFrom terse.toLawful) ?_
      exact fun front remark heq => hremark ⟨front, remark, heq⟩

set_option maxRecDepth 10000 in
/-- `REMx` is listed as `REM x`, and the listing of `PRINT A` is compacted as the line is. -/
theorem compactLine_reformatLine_remark :
    let table := Keyword.Table.ofTiers [.core]
    let remark := ['1', '0', ' ', 'P', '.', 'R', 'E', 'M', 'x', ' ']
    let spaced := ['P', 'R', 'I', 'N', 'T', ' ', 'A', ' ']
    (Inline remark ∧
      Text.trimRight (compactLine table remark) = ['1', '0', 'P', '.', 'R', 'E', 'M', 'x'] ∧
      compactLine table (reformatLine table remark) =
        ['1', '0', 'P', '.', 'R', 'E', 'M', ' ', 'x']) ∧
    (Inline spaced ∧
      compactLine table (reformatLine table spaced) = Text.trimRight (compactLine table spaced)) := by
  intro table remark spaced
  have hremark : Inline remark := by decide
  have hspaced : Inline spaced := by decide
  refine ⟨⟨hremark, ?_⟩, hspaced, (compactLine_reformatLine [.core] hspaced).2 ?_⟩
  · have h := (compactLine_reformatLine [.core] hremark).1 [⟨.keyword, ['P', '.']⟩] ['x', ' ']
      (by decide +kernel) rfl
    have hbefore : (LineNumber.split remark).1.elim [] LineNumber.text ++
        [⟨.keyword, ['P', '.']⟩].flatMap (compactForm table) ++ remWord =
          ['1', '0', 'P', '.', 'R', 'E', 'M'] := by
      decide +kernel
    rw [hbefore] at h
    exact h.2
  · have hlexemes : ofText table (LineNumber.split spaced).2 =
        [⟨.keyword, ['P', 'R', 'I', 'N', 'T']⟩, ⟨.identifier, ['A']⟩] := by
      decide +kernel
    intro front remark heq
    rw [hlexemes] at heq
    simpa using congrArg List.getLast? heq

end PocketBasic
