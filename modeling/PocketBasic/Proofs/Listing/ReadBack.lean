import PocketBasic.Proofs.LineNumber.Split
import PocketBasic.Proofs.Listing.Relisted
import PocketBasic.Proofs.Token.Lexemes

/-! Listings read back as the line. A listing in which nothing is expanded does: it only adds blanks
between lexemes, and in front of a remark. A settled listing has nothing to blame, so it either
reads back or expands nothing, and reads back anyway (`difference?_eq_none`). -/

namespace PocketBasic.Listing

open Lexeme

variable {table : Keyword.Table} {entry : Entry} {entries : List Entry}

/-- The entries are the lexemes of a line. -/
structure OfLine (table : Keyword.Table) (entries : List Entry) : Prop where
  scans : Scans table .lineStart (entries.map (·.lexeme))
  folded : Folded (entries.map (·.lexeme))
  inline : Inline (written (entries.map (·.lexeme)))

theorem OfLine.onLine (line : OfLine table entries) : OnLine (entries.map (·.lexeme)) :=
  line.scans.onLine line.inline

theorem OfLine.lineFrom (law : table.Lawful) (line : OfLine table entries) :
    LineFrom table .lineStart entries :=
  .of_scans law line.scans line.onLine

theorem OfLine.congr (line : OfLine table entries) {entries' : List Entry}
    (h : entries'.map (·.lexeme) = entries.map (·.lexeme)) : OfLine table entries' := by
  obtain ⟨scans, folded, inline⟩ := line
  rw [← h] at scans folded inline
  exact ⟨scans, folded, inline⟩

theorem ofLine_of_ofText (law : table.Lawful) {text : List Char} (h : Inline text)
    (heq : entries.map (·.lexeme) = Lexeme.ofText table text) : OfLine table entries := by
  obtain ⟨scans, folded, -⟩ := heq ▸ ofText_spec law text
  exact ⟨scans, folded, heq ▸ inline_written_ofText law h⟩

/-! ### Listings that expand nothing -/

/-- Setting a remark off leaves what stands in front of it as it is read. -/
private theorem scans_relisted (law : table.Lawful) {place : Place}
    (line : LineFrom table place entries)
    (typed : ∀ entry ∈ entries, entry.isExpanded table = false) :
    Scans table place (relisted table entries) ∧
      (written (relisted table entries) = written (entries.map (·.lexeme)) ∨
        ∃ front remark remark', written (relisted table entries) = front ++ remWord ++ remark' ∧
          written (entries.map (·.lexeme)) = front ++ remWord ++ remark) := by
  induction line with
  | nil => exact ⟨.nil, .inl rfl⟩
  | @rem _ entry first | @comment _ entry first =>
    rw [relisted_singleton, listed_of_not_expanded law (typed entry List.mem_cons_self)]
    exact ⟨.cons first .nil, .inl rfl⟩
  | @remark place entry comment first hrem hkind hne hinline =>
    have hlexeme := eq_of_isRem hrem
    have hplace : place ≠ .afterRem := first.place_ne (by simp [hlexeme]) (by simp [hlexeme])
    have hne' : remark [comment] ≠ [] := by simp [remark, hne]
    rw [relisted_of_rem hrem, listed_of_not_expanded law (typed entry List.mem_cons_self),
      List.map_cons, hlexeme, remarked, hkind]
    refine ⟨.cons (.rem hplace) (.cons (.remark hne' (inline_remark hinline) rfl) .nil),
      .inr ⟨[], comment.lexeme.text, remark [comment], ?_⟩⟩
    simp
  | @code _ entry entries first hline _ hrem _ ih =>
    obtain ⟨hfirst, hothers⟩ := List.forall_mem_cons.mp typed
    obtain ⟨scans, hcases⟩ := ih hothers
    rw [← placeAfter_eq_inLine hline hrem] at scans
    rw [relisted_of_code hrem, listed_of_not_expanded law hfirst, List.map_cons, written_cons,
      written_cons]
    rcases hcases with heq | ⟨front, remark, remark', heq', heq⟩
    · exact ⟨.cons (heq ▸ first) scans, .inl (by rw [heq])⟩
    · refine ⟨.cons (heq' ▸ ?_) scans, .inr ⟨entry.lexeme.text ++ front, remark, remark', ?_⟩⟩
      · rw [heq] at first
        exact first.congr_remWord law
      · simp only [heq, heq', List.append_assoc, true_and]

/-- A listing that expands nothing is read as what it lists. -/
theorem ofText_render_of_not_expanded (law : table.Lawful) (line : OfLine table entries)
    (typed : ∀ entry ∈ entries, entry.isExpanded table = false) :
    Lexeme.ofText table (render table entries) = relisted table entries := by
  obtain ⟨scans, -⟩ := scans_relisted law (line.lineFrom law) typed
  refine ofText_eq_of_scans law scans (Eq.symm ?_)
  refine kept_renderAfter law (line.lineFrom law) ?_ line.scans line.folded (by decide) none
  rw [List.forall₂_map_right_iff, List.forall₂_same]
  intro entry hmem
  have htext := spelling_of_not_expanded law (typed entry hmem)
  exact ⟨rfl, fun _ => htext.symm, by rw [htext]⟩

theorem trimLeft_remark (comment : Entry) :
    Text.trimLeft (remark [comment]) = Text.trimLeft comment.lexeme.text := by
  rw [remark]
  split
  · rfl
  · exact Text.trimLeft_cons_of_blank (by decide) _

/-- Relisting what was typed does not change what it reads as. -/
theorem reading_relisted_of_not_expanded (law : table.Lawful) {place : Place}
    (line : LineFrom table place entries)
    (typed : ∀ entry ∈ entries, entry.isExpanded table = false) :
    (relisted table entries).map (·.reading table) = entries.map (·.lexeme.reading table) := by
  induction line with
  | nil => rfl
  | rem _ _ | comment _ _ =>
    rw [relisted_singleton, listed_of_not_expanded law (typed _ List.mem_cons_self)]
    rfl
  | remark _ hrem hkind =>
    rw [relisted_of_rem hrem, listed_of_not_expanded law (typed _ List.mem_cons_self)]
    simp [remarked, reading, hkind, trimLeft_remark]
  | code _ _ _ hrem _ ih =>
    obtain ⟨hfirst, hothers⟩ := List.forall_mem_cons.mp typed
    rw [relisted_of_code hrem, listed_of_not_expanded law hfirst, List.map_cons, List.map_cons,
      ih hothers]

/-! ### Settled listings -/

/-- Among some positions there is always one to blame. -/
theorem eq_nil_of_blame? {positions : List Nat} {difference : Nat}
    (h : blame? positions difference = none) : positions = [] := by
  rw [blame?, Option.or_eq_none_iff, List.getLast?_eq_none_iff, List.filter_eq_nil_iff,
    List.find?_eq_none] at h
  obtain ⟨hupto, hafter⟩ := h
  refine List.eq_nil_iff_forall_not_mem.mpr fun i hmem => ?_
  have := hupto i hmem
  have := hafter i hmem
  simp_all

theorem not_expanded_of_expanded_eq_nil (h : expanded table entries = []) :
    ∀ entry ∈ entries, entry.isExpanded table = false := by
  intro entry hmem
  obtain ⟨i, hi, rfl⟩ := List.mem_iff_getElem.mp hmem
  rw [expanded, List.filter_eq_nil_iff] at h
  simpa [hi] using h i (List.mem_range.mpr hi)

/-- Where there is nobody to blame there is nothing to blame them for. -/
theorem difference?_eq_none (law : table.Lawful) (line : OfLine table entries)
    (h : culprit? table entries = none) : difference? table entries = none := by
  cases hdifference : difference? table entries with
  | none => rfl
  | some difference =>
    rw [culprit?, hdifference, Option.bind_some] at h
    have typed := not_expanded_of_expanded_eq_nil (eq_nil_of_blame? h)
    have hreads := ofText_render_of_not_expanded law line typed
    rw [← hdifference, difference?, firstDifference?_eq_none, Reading.ofText, hreads,
      reading_relisted_of_not_expanded law (line.lineFrom law) typed]

@[simp] theorem keep_nil (i : Nat) : keep i [] = [] := by
  cases i <;> rfl

@[simp] theorem keep_succ_cons (i : Nat) (entry : Entry) (entries : List Entry) :
    keep (i + 1) (entry :: entries) = entry :: keep i entries := rfl

theorem map_lexeme_keep (i : Nat) (entries : List Entry) :
    (keep i entries).map (·.lexeme) = entries.map (·.lexeme) := by
  induction entries generalizing i with
  | nil => rw [keep_nil]
  | cons entry entries ih =>
    cases i with
    | zero => rfl
    | succ i => exact congrArg (entry.lexeme :: ·) (ih i)

theorem map_lexeme_start (lexemes : List Lexeme) :
    (start lexemes).map (·.lexeme) = lexemes := by
  rw [start, List.map_map]
  exact List.map_id lexemes

/-- Settling goes on until nobody is to blame, and changes nothing but what is kept. -/
theorem settle_spec (table : Keyword.Table) (entries : List Entry) :
    culprit? table (settle table entries).1 = none ∧
      (settle table entries).1.map (·.lexeme) = entries.map (·.lexeme) := by
  fun_induction settle table entries with
  | case1 entries h => exact ⟨h, rfl⟩
  | case2 entries i h settled kept hsettle ih =>
    rw [hsettle, map_lexeme_keep] at ih
    exact ih

/-! ### Tokens of a listing -/

theorem toLexeme_reading (table : Keyword.Table) (tokens : List Token) :
    tokens.map (·.reading table) = (tokens.map (·.toLexeme)).map (Lexeme.reading table) := by
  rw [List.map_map]
  rfl

/-- The tokens of a listing that reads back mean what its entries do. -/
theorem reading_tokenize_render (h : difference? table entries = none) :
    (Token.tokenize table (render table entries)).map (·.reading table) =
      entries.map (·.lexeme.reading table) := by
  rw [difference?, firstDifference?_eq_none, Reading.ofText] at h
  rw [h]
  cases entries with
  | nil =>
    rw [← h, render, renderAfter, Token.tokenize_nil]
    rfl
  | cons entry entries =>
    have hne : Lexeme.ofText table (render table (entry :: entries)) ≠ [] := by
      intro hnil
      simp [hnil] at h
    rw [toLexeme_reading, Token.map_toLexeme_tokenize hne]

theorem inline_trim {text : List Char} (h : Inline text) : Inline (Text.trim text) := fun c hc =>
  h c ((Text.trim_sublist text).subset hc)

theorem inline_split {line : List Char} (h : Inline line) : Inline (LineNumber.split line).2 :=
  fun c hc => h c ((LineNumber.split_suffix line).subset hc)

theorem inline_of_split {line body : List Char} {number : Option LineNumber} (h : Inline line)
    (hsplit : LineNumber.split line = (number, body)) : Inline body := by
  have := inline_split h
  rwa [hsplit] at this

theorem inline_body {line : List Char} (h : Inline line) :
    Inline (Text.trim (LineNumber.split (Text.trim line)).2) :=
  inline_trim (inline_split (inline_trim h))

theorem inline_body_of_split {line body : List Char} {number : Option LineNumber}
    (h : Inline line) (hsplit : LineNumber.split (Text.trim line) = (number, body)) :
    Inline (Text.trim body) := by
  have := inline_body h
  rwa [hsplit] at this

/-- The listing of a line reads as the line does: its tokens mean the same, one by one. Whatever
is kept as typed, nobody is left to blame only if the listing reads back. -/
theorem reading_listing (tiers : List Tier) {line : List Char} (h : Inline line) :
    let table := Keyword.Table.ofTiers tiers
    let tokens := Token.tokenize table (Text.trim (LineNumber.split (Text.trim line)).2)
    let listing := render table (Listing.ofLine table line).entries
    (Token.tokenize table listing).map (·.reading table) = tokens.map (·.reading table) ∧
      ∀ entries, entries.map (·.lexeme) = tokens.map (·.toLexeme) →
        culprit? table entries = none → difference? table entries = none := by
  intro table tokens listing
  have law : table.Lawful := Keyword.Table.lawful_ofTiers tiers
  have htokens : tokens.map (·.toLexeme) = Lexeme.ofText table _ :=
    Token.map_toLexeme_tokenize_of_isTrimmed law (Text.isTrimmed_trim _)
  have settled (entries : List Entry) (heq : entries.map (·.lexeme) = tokens.map (·.toLexeme)) :
      culprit? table entries = none → difference? table entries = none :=
    difference?_eq_none law (ofLine_of_ofText law (inline_body h) (heq.trans htokens))
  refine ⟨?_, settled⟩
  have hentries : (Listing.ofLine table line).entries =
      (settle table (start (tokens.map (·.toLexeme)))).1 := by
    rw [htokens]
    rfl
  obtain ⟨hculprit, hlexemes⟩ := settle_spec table (start (tokens.map (·.toLexeme)))
  rw [← hentries, map_lexeme_start] at hlexemes
  rw [← hentries] at hculprit
  rw [reading_tokenize_render (settled _ hlexemes hculprit), toLexeme_reading, ← hlexemes,
    List.map_map]
  rfl

/-- `RES.M` reads back although `RESTORE M` would hold a `REM`. -/
theorem reading_listing_restore :
    let table := Keyword.Table.ofTiers [.core]
    let line := ['1', '0', ' ', 'R', 'E', 'S', '.', 'M']
    let tokens := Token.tokenize table (Text.trim (LineNumber.split (Text.trim line)).2)
    let listing := render table (Listing.ofLine table line).entries
    Inline line ∧
      (Token.tokenize table listing).map (·.reading table) = tokens.map (·.reading table) ∧
      ∀ entries, entries.map (·.lexeme) = tokens.map (·.toLexeme) →
        culprit? table entries = none → difference? table entries = none :=
  ⟨by decide, reading_listing [.core] (by decide)⟩

end PocketBasic.Listing
