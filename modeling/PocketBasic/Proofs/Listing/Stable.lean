import PocketBasic.Proofs.Listing.Mirrored

/-! Listings are stable. A settled listing is cut into the lexemes that it lists
(`ofText_render`), neither end of it is blank, and it carries the number that it was made with, so
that listing it again changes nothing (`reformatLine_reformatLine`). -/

namespace PocketBasic.Listing

open Lexeme

variable {table : Keyword.Table} {entry : Entry} {entries : List Entry}

/-! ### The lexemes of a listing -/

section
variable {place place' : Place} {lexeme : Lexeme} {rest rest' : List Char}

/-- A lexeme that means what an entry does is alike to what the entry lists. -/
theorem alike_of_reading (law : table.Lawful) (first : Opens table place entry.lexeme rest)
    (second : Opens table place' lexeme rest')
    (h : entry.lexeme.reading table = lexeme.reading table) :
    Alike table (entry.listed table) lexeme := by
  have hkeyword := first.keyword?_eq_of_reading law second h
  cases hfound : entry.lexeme.keyword? table with
  | some keyword =>
    obtain ⟨hk, -, hlisted⟩ := spelling_mem law first hfound
    obtain ⟨-, hmem⟩ := second.keyword?_eq_some law (hkeyword ▸ hfound)
    exact .spelling hk hlisted hmem
  | none =>
    have htext : (entry.listed table).text = entry.lexeme.text := spelling_of_none hfound
    cases first.alike_of_reading law second h with
    | content h => exact .content (htext ▸ h)
    | spelling hk ha hb => exact .spelling hk (htext ▸ ha) hb

theorem content_eq_of_keyword (law : table.Lawful) (first : Opens table place lexeme rest)
    (h : lexeme.kind = .keyword) : Text.content lexeme.text = lexeme.text := by
  rcases first.remWord_or_spells h with htext | ⟨keyword, hk, hmem⟩
  · rw [htext]
    rfl
  · exact (law.regular hk).content_eq hmem

/-- A lexeme that means what an entry does, and says what the entry lists, blanks apart, is listed
by the entry. -/
theorem lists_of_reading (law : table.Lawful) (first : Opens table place entry.lexeme rest)
    (second : Opens table place' lexeme rest')
    (h : entry.lexeme.reading table = lexeme.reading table)
    (hcontent : Text.content (entry.listed table).text = Text.content lexeme.text) :
    Lists table entry lexeme := by
  have hkind : lexeme.kind = entry.lexeme.kind := (congrArg Reading.kind h).symm
  refine ⟨hkind, fun hcomment => ?_, hcontent.symm⟩
  by_cases hk : lexeme.kind = .keyword
  · have hspelling : Text.content (entry.spelling table) = entry.spelling table := by
      rcases spelling_eq_or_mem law first with heq | ⟨keyword, hmem, -, hlisted⟩
      · rw [heq, content_eq_of_keyword law first (hkind ▸ hk)]
      · exact (law.regular hmem).content_eq hlisted
    rw [Entry.listed, hspelling, content_eq_of_keyword law second hk] at hcontent
    exact hcontent.symm
  · have htext := congrArg Reading.text h
    rw [reading_text_of_ne (hkind ▸ hk) (hkind ▸ hcomment), reading_text_of_ne hk hcomment] at htext
    rw [spelling_of_kind_ne (hkind ▸ hk), htext]

end

/-- The lexemes of a text that means what some entries do, and that says what they list, are listed
by these. -/
theorem forall₂_lists (law : table.Lawful) {place place' : Place} {lexemes : List Lexeme}
    (typed : Scans table place (entries.map (·.lexeme))) (scans : Scans table place' lexemes)
    (h : entries.map (·.lexeme.reading table) = lexemes.map (·.reading table))
    (hcontent : Text.content (written (entries.map (Entry.listed table))) =
      Text.content (written lexemes)) : List.Forall₂ (Lists table) entries lexemes := by
  have hview : (entries.map (·.lexeme)).map (·.reading table) = lexemes.map (·.reading table) := by
    rw [List.map_map]
    exact h
  have alike := Scans.forall₂_of_map_eq (alike_of_reading law) typed scans hview
  have contents := contents_eq law (List.forall₂_map_left_iff.mpr alike) hcontent
  rw [List.forall₂_map_left_iff] at contents
  exact (Scans.forall₂_of_map_eq (lists_of_reading law) typed scans hview).mp
    (fun _ _ lists content => lists content) contents

theorem Lists.eq_listed {lexeme : Lexeme} (lists : Lists table entry lexeme)
    (h : lexeme.text = entry.spelling table) : lexeme = entry.listed table := by
  rw [Entry.listed, ← h, ← lists.kind_eq]

/-- Lexemes that entries list and that are written as these are relisted are those relisted. -/
theorem eq_relisted {place : Place} {lexemes : List Lexeme} (line : LineFrom table place entries)
    (lists : List.Forall₂ (Lists table) entries lexemes)
    (h : written lexemes = written (relisted table entries)) :
    lexemes = relisted table entries := by
  induction line generalizing lexemes with
  | nil =>
    cases lists
    rfl
  | rem _ _ | comment _ _ =>
    obtain ⟨lexeme, _, first, hnil, rfl⟩ := List.forall₂_cons_left_iff.mp lists
    obtain rfl := List.forall₂_nil_left_iff.mp hnil
    rw [relisted_singleton] at h ⊢
    rw [first.eq_listed (List.append_cancel_right h)]
  | @remark _ entry comment _ hrem hkind =>
    obtain ⟨lexeme, _, first, others, rfl⟩ := List.forall₂_cons_left_iff.mp lists
    obtain ⟨other, _, second, hnil, rfl⟩ := List.forall₂_cons_left_iff.mp others
    obtain rfl := List.forall₂_nil_left_iff.mp hnil
    have hkeyword := (isRem_iff.mp hrem).1
    obtain rfl := first.eq_listed (first.text_eq (by simp [first.kind_eq, hkeyword]))
    rw [relisted_of_rem hrem] at h ⊢
    have htext : other.text = remark [comment] :=
      List.append_cancel_right (List.append_cancel_left h)
    rw [remarked, ← second.kind_eq, ← htext]
  | @code _ entry entries _ _ hcomment hrem _ ih =>
    obtain ⟨lexeme, lexemes, first, others, rfl⟩ := List.forall₂_cons_left_iff.mp lists
    obtain rfl := first.eq_listed (first.text_eq (first.kind_eq ▸ hcomment))
    rw [relisted_of_code hrem] at h ⊢
    rw [ih others (List.append_cancel_left h)]

/-- A listing that reads back is cut into the lexemes that it lists. -/
theorem ofText_render (law : table.Lawful) (line : OfLine table entries)
    (h : difference? table entries = none) :
    Lexeme.ofText table (render table entries) = relisted table entries := by
  obtain ⟨scans, folded, hwritten⟩ := ofText_spec law (render table entries)
  rw [difference?, firstDifference?_eq_none, Reading.ofText] at h
  have hcontent : Text.content (written (entries.map (Entry.listed table))) =
      Text.content (written (Lexeme.ofText table (render table entries))) := by
    rw [hwritten, Folding.content_kept, render, content_renderAfter law (line.lineFrom law)]
  have lists := forall₂_lists law line.scans scans h hcontent
  refine eq_relisted (line.lineFrom law) lists (hwritten.trans ?_)
  exact kept_renderAfter law (line.lineFrom law) lists scans folded (by decide) none

/-! ### The ends of a listing -/

theorem render_cons (law : table.Lawful) (entry : Entry) (entries : List Entry) :
    ∃ more, render table (entry :: entries) = entry.spelling table ++ more := by
  rw [render, renderAfter]
  by_cases hrem : entry.lexeme.isRem = true
  · exact ⟨remark entries, by rw [if_pos hrem, spelling_of_isRem law hrem]; rfl⟩
  · by_cases hcomment : entry.lexeme.kind = .comment
    · refine ⟨[], ?_⟩
      rw [if_neg hrem, if_pos hcomment, spelling_of_kind_ne (by simp [hcomment]), List.append_nil]
      rfl
    · exact ⟨renderAfter table (some entry.lexeme.kind) entries, by
        rw [if_neg hrem, if_neg hcomment]; rfl⟩

theorem startsBlank_render (law : table.Lawful) (line : OfLine table entries)
    (h : difference? table entries = none) : Text.startsBlank (render table entries) = false := by
  cases entries with
  | nil => rfl
  | cons entry entries =>
    obtain ⟨scans, folded, -⟩ := ofText_spec law (render table (entry :: entries))
    rw [ofText_render law line h, relisted] at scans folded
    have hblank := scans.startsBlank_eq law folded (by decide)
    obtain ⟨more, hmore⟩ := render_cons law entry entries
    rw [hmore]
    cases scans with
    | cons first _ =>
      obtain ⟨c, tail, htext⟩ := List.exists_cons_of_ne_nil (first.text_ne_nil law)
      have hspelling : entry.spelling table = c :: tail := htext
      rw [written_cons, htext] at hblank
      rw [hspelling]
      exact hblank

theorem spelling_ne_nil (law : table.Lawful) {place : Place} {rest : List Char}
    (first : Opens table place entry.lexeme rest) : entry.spelling table ≠ [] := by
  rcases spelling_eq_or_mem law first with heq | ⟨keyword, hk, -, hmem⟩
  · exact heq ▸ first.text_ne_nil law
  · exact (law.regular hk).ne_nil_of_mem hmem

theorem endsBlank_spelling (law : table.Lawful) {place : Place} {rest : List Char}
    (first : Opens table place entry.lexeme rest)
    (h : Text.endsBlank entry.lexeme.text = false) :
    Text.endsBlank (entry.spelling table) = false := by
  rcases spelling_eq_or_mem law first with heq | ⟨keyword, hk, -, hmem⟩
  · rwa [heq]
  · exact Text.endsBlank_of_not_blank ((law.regular hk).not_blank hmem)

theorem renderAfter_ne_nil (law : table.Lawful) {place : Place} {rest : List Char}
    (first : Opens table place entry.lexeme rest) (before : Option Token.Kind) :
    renderAfter table before (entry :: entries) ≠ [] := by
  rw [renderAfter]
  intro hnil
  have hnil := (List.append_eq_nil_iff.mp hnil).2
  split at hnil
  · simp [remWord] at hnil
  · split at hnil
    · exact first.text_ne_nil law hnil
    · exact spelling_ne_nil law first (List.append_eq_nil_iff.mp hnil).1

/-- What is listed, and what was typed, is empty for no entries only. -/
theorem LineFrom.ne_nil (law : table.Lawful) {place : Place} (line : LineFrom table place entries)
    (h : entries ≠ []) (before : Option Token.Kind) :
    written (entries.map (·.lexeme)) ≠ [] ∧ renderAfter table before entries ≠ [] := by
  have written_ne_nil {entry : Entry} {entries : List Entry} {rest : List Char}
      (first : Opens table place entry.lexeme rest) :
      written ((entry :: entries).map (·.lexeme)) ≠ [] := fun hnil =>
    first.text_ne_nil law (List.append_eq_nil_iff.mp hnil).1
  cases line with
  | nil => contradiction
  | rem first _ | remark first _ _ _ _ | comment first _ | code first _ _ _ _ =>
    exact ⟨written_ne_nil first, renderAfter_ne_nil law first before⟩

/-- A listing ends as the line does. -/
theorem endsBlank_renderAfter (law : table.Lawful) {place : Place}
    (line : LineFrom table place entries)
    (h : Text.endsBlank (written (entries.map (·.lexeme))) = false) (before : Option Token.Kind) :
    Text.endsBlank (renderAfter table before entries) = false := by
  induction line generalizing before with
  | nil => rfl
  | rem _ hrem =>
    rw [renderAfter_of_rem before hrem, remark, List.append_nil]
    exact Text.endsBlank_append (by simp [remWord]) _
  | @remark _ entry comment _ hrem _ hne =>
    have hend : Text.endsBlank (entry.lexeme.text ++ comment.lexeme.text) = false := by
      simpa using h
    rw [Text.endsBlank_append hne] at hend
    rwa [renderAfter_of_rem before hrem, remark, ← List.append_assoc, ← List.append_assoc,
      Text.endsBlank_append hne]
  | comment first hkind =>
    rw [renderAfter_of_comment before hkind, Text.endsBlank_append (first.text_ne_nil law)]
    simpa using h
  | @code _ entry entries first _ hcomment hrem line ih =>
    rw [List.map_cons, written_cons] at h
    rw [renderAfter_of_code before hrem hcomment, ← List.append_assoc]
    by_cases hnil : entries = []
    · subst hnil
      rw [List.map_nil, written_nil, List.append_nil] at h
      rw [renderAfter, List.append_nil, Text.endsBlank_append (spelling_ne_nil law first)]
      exact endsBlank_spelling law first h
    · obtain ⟨hwritten, hrender⟩ := line.ne_nil law hnil (some entry.lexeme.kind)
      rw [Text.endsBlank_append hwritten] at h
      rw [Text.endsBlank_append hrender]
      exact ih h _

theorem isTrimmed_render (law : table.Lawful) (line : OfLine table entries)
    (h : difference? table entries = none)
    (hend : Text.endsBlank (written (entries.map (·.lexeme))) = false) :
    Text.IsTrimmed (render table entries) where
  left := startsBlank_render law line h
  right := endsBlank_renderAfter law (line.lineFrom law) hend none

/-! ### Listing a line again -/

/-- Settling the lexemes of a settled listing lists them as they were. -/
theorem mirrored_settle (law : table.Lawful) {lexemes : List Lexeme}
    (line : OfLine table (start lexemes)) :
    let settled := (settle table (start lexemes)).1
    Mirrored table settled
      (settle table (start (Lexeme.ofText table (render table settled)))).1 := by
  intro settled
  obtain ⟨hculprit, hlexemes⟩ := settle_spec table (start lexemes)
  have line' : OfLine table settled := line.congr hlexemes
  rw [ofText_render law line' (difference?_eq_none law line' hculprit)]
  have hstart := mirrored_start law (line'.lineFrom law)
  rw [map_lexeme_start] at hlexemes
  rw [hlexemes] at hstart
  refine (settle_mirrored hstart fun i hi => ?_).2
  obtain ⟨entry, hfound, htyped, hkind⟩ := exists_of_mem_settle hi
  have hlisted : entry.listed table = entry.lexeme := by
    rw [Entry.listed, Entry.spelling, if_pos htyped]
  have hrelisted := getElem?_relisted (line'.lineFrom law) hfound (by simp [hkind])
  rw [start, start, List.getElem?_map, List.getElem?_map, hrelisted, hlisted, ← hlexemes,
    List.getElem?_map, hfound]
  rfl

end PocketBasic.Listing
