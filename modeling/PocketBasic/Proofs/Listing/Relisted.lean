import PocketBasic.Listing.Canonical
import PocketBasic.Proofs.Lexeme.Alike
import PocketBasic.Proofs.Lexeme.Context
import PocketBasic.Proofs.Lexeme.Line

/-! What a listing is written as. Its spaces stand between lexemes only, so folding drops them again
and leaves the lexemes as they are listed (`kept_renderAfter`), wherever the listing is cut into
these lexemes by a scan. The space in front of a comment is part of the comment. All of this goes
along the entries of a line, which are code up to a comment at the end of it (`LineFrom`). -/

namespace PocketBasic.Listing

open Lexeme

variable {table : Keyword.Table} {entry : Entry} {entries : List Entry}

/-- The lexeme as it is listed. -/
def Entry.listed (table : Keyword.Table) (entry : Entry) : Lexeme where
  kind := entry.lexeme.kind
  text := entry.spelling table

/-- The lexemes behind a `REM`, as they are listed. -/
def remarked : List Entry → List Lexeme
  | [] => []
  | entry :: _ => [⟨entry.lexeme.kind, remark [entry]⟩]

/-- The lexemes of a line as they are listed. -/
def relisted (table : Keyword.Table) : List Entry → List Lexeme
  | [] => []
  | entry :: entries =>
    entry.listed table ::
      if entry.lexeme.isRem then remarked entries else relisted table entries

/-! ### Spellings -/

theorem spelling_of_kind_ne (h : entry.lexeme.kind ≠ .keyword) :
    entry.spelling table = entry.lexeme.text := by
  rw [Entry.spelling, keyword?_of_kind_ne h]
  exact ite_self _

theorem spelling_of_comment (h : entry.lexeme.kind = .comment) :
    entry.spelling table = entry.lexeme.text :=
  spelling_of_kind_ne (by simp [h])

/-- A `REM` is listed as such. -/
theorem spelling_of_isRem (law : table.Lawful) (h : entry.lexeme.isRem = true) :
    entry.spelling table = remWord := by
  obtain ⟨hkind, htext⟩ := isRem_iff.mp h
  rw [Entry.spelling, keyword?_of_kind hkind, htext]
  cases hfound : table.lookup? remWord with
  | none => exact ite_self _
  | some keyword =>
    obtain ⟨hk, hmem⟩ := Keyword.Table.mem_of_lookup? hfound
    rw [upper_of_isSpellingChar (by decide)] at hmem
    obtain ⟨-, hname⟩ := (law.regular hk).eq_remWord_of_isPrefix hmem List.prefix_rfl
    rw [Option.elim_some, hname]
    exact ite_self _

/-- Nothing but a `REM` is listed as one. -/
theorem isRem_of_spelling (law : table.Lawful) {place : Place} {rest : List Char}
    (first : Opens table place entry.lexeme rest) (hkind : entry.lexeme.kind = .keyword)
    (h : entry.spelling table = remWord) : entry.lexeme.isRem = true := by
  refine isRem_iff.mpr ⟨hkind, ?_⟩
  rw [Entry.spelling] at h
  split at h
  next => exact h
  next =>
    cases hfound : entry.lexeme.keyword? table with
    | none => simpa [hfound] using h
    | some keyword =>
      obtain ⟨hk, hmem⟩ := first.keyword?_eq_some law hfound
      have hname : keyword.name = remWord := by simpa [hfound] using h
      have habbr := ((law.regular hk).remWord_isPrefix (hname ▸ List.prefix_rfl)).2
      rcases (law.regular hk).mem_spellings_iff.mp hmem with htext | ⟨has, -⟩
      · rw [htext, hname]
      · exact absurd (habbr.trans hname.symm) (Keyword.hasAbbreviation_iff.mp has)

/-- What is not expanded is listed as it was typed. -/
theorem spelling_of_not_expanded (law : table.Lawful) (h : entry.isExpanded table = false) :
    entry.spelling table = entry.lexeme.text := by
  by_cases hrem : entry.lexeme.isRem = true
  · rw [spelling_of_isRem law hrem, (isRem_iff.mp hrem).2]
  · rw [Entry.spelling]
    split
    next => rfl
    next htyped =>
      cases hfound : entry.lexeme.keyword? table with
      | none => rfl
      | some keyword => simpa [Entry.isExpanded, htyped, hrem, hfound] using h

theorem listed_of_not_expanded (law : table.Lawful) (h : entry.isExpanded table = false) :
    entry.listed table = entry.lexeme := by
  rw [Entry.listed, spelling_of_not_expanded law h]

theorem spelling_of_none (h : entry.lexeme.keyword? table = none) :
    entry.spelling table = entry.lexeme.text := by
  rw [Entry.spelling, h]
  exact ite_self _

/-- A keyword is listed with one of its spellings. -/
theorem spelling_mem (law : table.Lawful) {place : Place} {rest : List Char}
    (first : Opens table place entry.lexeme rest) {keyword : Keyword}
    (h : entry.lexeme.keyword? table = some keyword) :
    keyword ∈ table.keywords ∧ entry.lexeme.text ∈ keyword.spellings ∧
      entry.spelling table ∈ keyword.spellings := by
  obtain ⟨hk, hmem⟩ := first.keyword?_eq_some law h
  refine ⟨hk, hmem, ?_⟩
  rw [Entry.spelling, h, Option.elim_some]
  split
  · exact hmem
  · exact (law.regular hk).name_mem_spellings

/-- A lexeme is listed as it was typed, or both are spellings of one keyword. -/
theorem spelling_eq_or_mem (law : table.Lawful) {place : Place} {rest : List Char}
    (first : Opens table place entry.lexeme rest) :
    entry.spelling table = entry.lexeme.text ∨ ∃ keyword ∈ table.keywords,
      entry.lexeme.text ∈ keyword.spellings ∧ entry.spelling table ∈ keyword.spellings := by
  cases hfound : entry.lexeme.keyword? table with
  | none => exact .inl (spelling_of_none hfound)
  | some keyword => exact .inr ⟨keyword, spelling_mem law first hfound⟩

/-- A lexeme is listed as one that it is alike to. -/
theorem alike_listed (law : table.Lawful) {place : Place} {rest : List Char}
    (first : Opens table place entry.lexeme rest) :
    Alike table entry.lexeme (entry.listed table) := by
  rcases spelling_eq_or_mem law first with heq | ⟨keyword, hk, htext, hspelling⟩
  · exact .content (congrArg Text.content heq.symm)
  · exact .spelling hk htext hspelling

/-! ### The entries of a line -/

/-- The entries of a line from a place on. A `REM` stands at the end of the line, or one comment
follows it; a comment stands at the end. Everything else is code. -/
inductive LineFrom (table : Keyword.Table) : Place → List Entry → Prop where
  | nil {place : Place} : LineFrom table place []
  | rem {place : Place} {entry : Entry} (first : Opens table place entry.lexeme [])
      (hrem : entry.lexeme.isRem = true) : LineFrom table place [entry]
  | remark {place : Place} {entry comment : Entry}
      (first : Opens table place entry.lexeme comment.lexeme.text)
      (hrem : entry.lexeme.isRem = true) (hkind : comment.lexeme.kind = .comment)
      (hne : comment.lexeme.text ≠ []) (hinline : Inline comment.lexeme.text) :
      LineFrom table place [entry, comment]
  | comment {place : Place} {entry : Entry} (first : Opens table place entry.lexeme [])
      (hkind : entry.lexeme.kind = .comment) : LineFrom table place [entry]
  | code {place : Place} {entry : Entry} {entries : List Entry}
      (first : Opens table place entry.lexeme (written (entries.map (·.lexeme))))
      (hline : entry.lexeme.kind ≠ .newline) (hcomment : entry.lexeme.kind ≠ .comment)
      (hrem : entry.lexeme.isRem = false) (others : LineFrom table .inLine entries) :
      LineFrom table place (entry :: entries)

theorem LineFrom.of_scans (law : table.Lawful) {place : Place}
    (scans : Scans table place (entries.map (·.lexeme)))
    (line : OnLine (entries.map (·.lexeme))) : LineFrom table place entries := by
  induction entries generalizing place with
  | nil => exact .nil
  | cons entry entries ih =>
    rw [List.map_cons] at scans line
    by_cases hrem : entry.lexeme.isRem = true
    · rcases scans.eq_nil_or_comment law line hrem with hnil | ⟨comment, hcons, hkind, hne, hinline⟩
      · obtain rfl := List.map_eq_nil_iff.mp hnil
        cases scans with
        | cons first _ => exact .rem first hrem
      · obtain ⟨other, rfl, rfl⟩ := List.map_eq_singleton_iff.mp hcons
        cases scans with
        | cons first _ => exact .remark (by simpa using first) hrem hkind hne hinline
    · by_cases hcomment : entry.lexeme.kind = .comment
      · obtain rfl := List.map_eq_nil_iff.mp (scans.eq_nil_of_comment law line hcomment)
        cases scans with
        | cons first _ => exact .comment first hcomment
      · rw [Bool.not_eq_true] at hrem
        have hline : entry.lexeme.kind ≠ .newline := line _ List.mem_cons_self
        cases scans with
        | cons first others =>
          rw [placeAfter_eq_inLine hline hrem] at others
          exact .code first hline hcomment hrem (ih others line.tail)

theorem LineFrom.onLine {place : Place} (line : LineFrom table place entries) :
    OnLine (entries.map (·.lexeme)) := by
  induction line with
  | nil => simp [OnLine]
  | rem _ hrem => simp [OnLine, (isRem_iff.mp hrem).1]
  | remark _ hrem hkind => simp [OnLine, (isRem_iff.mp hrem).1, hkind]
  | comment _ hkind => simp [OnLine, hkind]
  | code _ hline _ _ _ ih => exact List.forall_mem_cons.mpr ⟨hline, ih⟩

theorem relisted_of_code (h : entry.lexeme.isRem = false) :
    relisted table (entry :: entries) = entry.listed table :: relisted table entries := by
  rw [relisted, h, if_neg Bool.false_ne_true]

theorem relisted_of_rem (h : entry.lexeme.isRem = true) :
    relisted table (entry :: entries) = entry.listed table :: remarked entries := by
  rw [relisted, if_pos h]

theorem relisted_singleton (entry : Entry) : relisted table [entry] = [entry.listed table] := by
  rw [relisted]
  split <;> rfl

theorem renderAfter_of_code (before : Option Token.Kind) (hrem : entry.lexeme.isRem = false)
    (hcomment : entry.lexeme.kind ≠ .comment) :
    renderAfter table before (entry :: entries) = gap before entry.lexeme.kind ++
      (entry.spelling table ++ renderAfter table (some entry.lexeme.kind) entries) := by
  rw [renderAfter, hrem, if_neg Bool.false_ne_true, if_neg hcomment]

theorem renderAfter_of_rem (before : Option Token.Kind) (h : entry.lexeme.isRem = true) :
    renderAfter table before (entry :: entries) =
      gap before entry.lexeme.kind ++ (remWord ++ remark entries) := by
  rw [renderAfter, if_pos h]

theorem renderAfter_of_comment (before : Option Token.Kind) (h : entry.lexeme.kind = .comment) :
    renderAfter table before (entry :: entries) =
      gap before entry.lexeme.kind ++ entry.lexeme.text := by
  rw [renderAfter, if_neg (by simp [isRem, h]), if_pos h]

/-! ### Blanks of a listing -/

theorem gap_blank (before : Option Token.Kind) (after : Token.Kind) :
    ∀ c ∈ gap before after, Text.isBlank c = true := by
  rw [gap]
  split <;> simp [Text.isBlank]

theorem content_remark (comment : Entry) :
    Text.content (remark [comment]) = Text.content comment.lexeme.text := by
  rw [remark]
  split <;> simp [Text.content, Text.isBlank]

theorem content_gap (before : Option Token.Kind) (after : Token.Kind) (text : List Char) :
    Text.content (gap before after ++ text) = Text.content text := by
  rw [Text.content_append, Text.content_eq_nil_iff.mpr (gap_blank _ _), List.nil_append]

/-- The blanks of a listing are those of its strings and comments, and others that do not count. -/
theorem content_renderAfter (law : table.Lawful) {place : Place}
    (line : LineFrom table place entries) (before : Option Token.Kind) :
    Text.content (renderAfter table before entries) =
      Text.content (written (entries.map (Entry.listed table))) := by
  induction line generalizing before with
  | nil => rfl
  | rem _ hrem =>
    rw [renderAfter_of_rem before hrem, content_gap]
    simp [remark, Entry.listed, spelling_of_isRem law hrem]
  | remark _ hrem hkind =>
    rw [renderAfter_of_rem before hrem, content_gap, Text.content_append, content_remark]
    simp [Entry.listed, spelling_of_isRem law hrem, spelling_of_comment hkind]
  | comment _ hkind =>
    rw [renderAfter_of_comment before hkind, content_gap]
    simp [Entry.listed, spelling_of_comment hkind]
  | code _ _ hcomment hrem _ ih =>
    rw [renderAfter_of_code before hrem hcomment, content_gap, Text.content_append, ih,
      List.map_cons, content_written_cons]
    rfl

/-! ### Folding a listing -/

/-- A lexeme of a text that is cut into the lexemes of a listing. -/
structure Lists (table : Keyword.Table) (entry : Entry) (lexeme : Lexeme) : Prop where
  kind_eq : lexeme.kind = entry.lexeme.kind
  text_eq : lexeme.kind ≠ .comment → lexeme.text = entry.spelling table
  content_eq : Text.content lexeme.text = Text.content (entry.spelling table)

theorem Lists.content_written {lexemes : List Lexeme}
    (h : List.Forall₂ (Lists table) entries lexemes) :
    Text.content (written lexemes) = Text.content (written (entries.map (Entry.listed table))) := by
  induction h with
  | nil => rfl
  | cons first others ih =>
    rw [List.map_cons, content_written_cons, content_written_cons, ih, first.content_eq]
    rfl

theorem kept_gap (before : Option Token.Kind) (after : Token.Kind) (text : List Char) :
    Folding.kept .code (gap before after ++ text) [] = Folding.kept .code text [] :=
  Folding.kept_blanks_append (gap_blank before after) text []

theorem inline_remark {comment : Entry} (h : Inline comment.lexeme.text) :
    Inline (remark [comment]) := by
  intro c hc
  rw [remark] at hc
  rcases List.mem_append.mp hc with hc | hc
  · split at hc
    · contradiction
    · rw [List.mem_singleton.mp hc]
      decide
  · exact h c hc

theorem Lists.onLine {lexemes : List Lexeme} (h : List.Forall₂ (Lists table) entries lexemes)
    (line : OnLine (entries.map (·.lexeme))) : OnLine lexemes := by
  induction h with
  | nil => exact line
  | cons first others ih =>
    refine List.forall_mem_cons.mpr ⟨?_, ih line.tail⟩
    rw [first.kind_eq]
    exact line _ List.mem_cons_self

/-- What is no `REM` is not listed as one. -/
theorem Lists.isRem_eq_false (law : table.Lawful) {place : Place} {rest : List Char}
    {lexeme : Lexeme} (lists : Lists table entry lexeme)
    (first : Opens table place entry.lexeme rest) (hcomment : entry.lexeme.kind ≠ .comment)
    (hrem : entry.lexeme.isRem = false) : lexeme.isRem = false := by
  rw [Bool.eq_false_iff] at hrem ⊢
  intro h
  obtain ⟨hkind, hword⟩ := isRem_iff.mp h
  rw [lists.text_eq (lists.kind_eq ▸ hcomment)] at hword
  exact hrem (isRem_of_spelling law first (lists.kind_eq ▸ hkind) hword)

/-- Folding the listing of a line gives the lexemes that it lists, if a scan finds them. -/
theorem kept_renderAfter (law : table.Lawful) {place : Place} {lexemes : List Lexeme}
    (line : LineFrom table place entries) (lists : List.Forall₂ (Lists table) entries lexemes)
    (scans : Scans table place lexemes) (folded : Folded lexemes) (hplace : place ≠ .afterRem)
    (before : Option Token.Kind) :
    Folding.kept .code (renderAfter table before entries) [] =
      written (relisted table entries) := by
  induction line generalizing lexemes before with
  | nil => rfl
  | rem _ hrem =>
    rw [renderAfter_of_rem before hrem, kept_gap, relisted_singleton, remark, List.append_nil,
      kept_of_not_blank (by decide)]
    simp [Entry.listed, spelling_of_isRem law hrem]
  | remark _ hrem _ _ hinline =>
    rw [renderAfter_of_rem before hrem, kept_gap, Folding.kept_append, through_remWord,
      List.append_nil, (Folding.kept_comment (inline_remark hinline) []).1,
      kept_of_not_blank (by decide), relisted_of_rem hrem]
    simp [remarked, Entry.listed, spelling_of_isRem law hrem]
  | @comment place entry first hkind =>
    have hverbatim : entry.lexeme.isVerbatim = true := by simp [isVerbatim, hkind]
    have hkept : Folding.kept .code entry.lexeme.text [] = entry.lexeme.text :=
      (first.in_step law (.inl (Place.mode_of_ne hplace).symm) (by simp [hverbatim])
        (by simp [hverbatim])).1
    rw [renderAfter_of_comment before hkind, kept_gap, hkept, relisted_singleton]
    simp [Entry.listed, spelling_of_comment hkind]
  | @code place entry entries first hline hcomment hrem line ih =>
    cases lists with
    | @cons _ lexeme _ lexemes listed others =>
      have htext := listed.text_eq (listed.kind_eq ▸ hcomment)
      have hcontent : Text.content (renderAfter table (some entry.lexeme.kind) entries) =
          Text.content (written lexemes) := by
        rw [content_renderAfter law line, Lists.content_written others]
      obtain ⟨hkept, hagrees⟩ := scans.in_step law folded (.inl (Place.mode_of_ne hplace).symm)
        hcontent
      rw [renderAfter_of_code before hrem hcomment, kept_gap, Folding.kept_append, List.append_nil,
        ← htext, hkept, relisted_of_code hrem, written_cons, Entry.listed, ← htext]
      refine congrArg (lexeme.text ++ ·) ?_
      have hplace := placeAfter_eq_inLine (listed.kind_eq ▸ hline)
        (listed.isRem_eq_false law first hcomment hrem)
      rw [hplace] at hagrees
      cases scans with
      | cons _ scans =>
        rw [hplace] at scans
        rcases hagrees with heq | hend
        · rw [heq]
          exact ih others scans folded.tail (by decide) _
        · have hnil := scans.eq_nil_of_endsLine law (Lists.onLine others line.onLine) hend
          subst hnil
          cases others
          rfl

end PocketBasic.Listing
