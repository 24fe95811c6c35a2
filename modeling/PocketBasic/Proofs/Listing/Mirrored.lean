import PocketBasic.Proofs.Listing.Rounds

/-! Listing a listing. The entries of a settled listing, read again, mirror the entries it was made
from: they mean the same and are listed in the same way, and they are spelled in full where
nothing was kept. Settling such entries blames the same keywords in the same order
(`settle_mirrored`), because a keyword that is spelled in full already is not expanded, and nobody
else is missing among those to blame. -/

namespace PocketBasic.Listing

open Lexeme

variable {table : Keyword.Table} {entry entry' : Entry} {entries entries' : List Entry}

/-- The second entry is listed as the first one and is to blame only where the first one is. -/
structure Mirrors (table : Keyword.Table) (entry entry' : Entry) : Prop where
  kind_eq : entry'.lexeme.kind = entry.lexeme.kind
  isRem_eq : entry'.lexeme.isRem = entry.lexeme.isRem
  reading_eq : entry'.lexeme.reading table = entry.lexeme.reading table
  spelling_eq : entry'.spelling table = entry.spelling table
  expanded : entry'.isExpanded table = true → entry.isExpanded table = true

/-- The entries mirror each other one by one. Remarks may differ in the blank that sets them off. -/
inductive Mirrored (table : Keyword.Table) : List Entry → List Entry → Prop where
  | nil : Mirrored table [] []
  | cons {entry entry' : Entry} {entries entries' : List Entry}
      (first : Mirrors table entry entry') (hrem : entry.lexeme.isRem = true → entries = [])
      (others : Mirrored table entries entries') :
      Mirrored table (entry :: entries) (entry' :: entries')
  | remark {entry entry' comment comment' : Entry} (hrem : entry.lexeme.isRem = true)
      (hrem' : entry'.lexeme.isRem = true) (hkind : comment.lexeme.kind = .comment)
      (hkind' : comment'.lexeme.kind = .comment)
      (hremark : Listing.remark [comment'] = Listing.remark [comment]) :
      Mirrored table [entry, comment] [entry', comment']

theorem not_expanded_of_isRem (h : entry.lexeme.isRem = true) : entry.isExpanded table = false := by
  simp [Entry.isExpanded, h]

theorem not_expanded_of_kind_ne (h : entry.lexeme.kind ≠ .keyword) :
    entry.isExpanded table = false := by
  simp [Entry.isExpanded, keyword?_of_kind_ne h]

namespace Mirrored

theorem length_eq (h : Mirrored table entries entries') : entries'.length = entries.length := by
  induction h with
  | nil => rfl
  | cons _ _ _ ih => rw [List.length_cons, List.length_cons, ih]
  | remark => rfl

theorem renderAfter_eq (h : Mirrored table entries entries') (before : Option Token.Kind) :
    renderAfter table before entries' = renderAfter table before entries := by
  induction h generalizing before with
  | nil => rfl
  | @cons entry entry' entries entries' first hrem others ih =>
    rw [renderAfter, renderAfter, first.kind_eq, first.isRem_eq, first.spelling_eq, ih]
    by_cases h : entry.lexeme.isRem = true
    · obtain rfl := hrem h
      cases others
      rw [if_pos h, if_pos h]
    · rw [if_neg h, if_neg h]
      by_cases hcomment : entry.lexeme.kind = .comment
      · have htext := first.spelling_eq
        rw [spelling_of_kind_ne (by simp [first.kind_eq, hcomment]),
          spelling_of_kind_ne (by simp [hcomment])] at htext
        rw [if_pos hcomment, if_pos hcomment, htext]
      · rw [if_neg hcomment, if_neg hcomment]
  | remark hrem hrem' _ _ hremark =>
    simp only [renderAfter, if_pos hrem, if_pos hrem', hremark, (isRem_iff.mp hrem).1,
      (isRem_iff.mp hrem').1]

theorem reading_eq (h : Mirrored table entries entries') :
    entries'.map (·.lexeme.reading table) = entries.map (·.lexeme.reading table) := by
  induction h with
  | nil => rfl
  | cons first _ _ ih => rw [List.map_cons, List.map_cons, ih, first.reading_eq]
  | @remark entry entry' comment comment' hrem hrem' hkind hkind' hremark =>
    have hword : entry'.lexeme = entry.lexeme := (eq_of_isRem hrem').trans (eq_of_isRem hrem).symm
    have htrim := congrArg Text.trimLeft hremark
    rw [trimLeft_remark, trimLeft_remark] at htrim
    simp [hword, reading, hkind, hkind', htrim]

/-- Where the readings and the listings are the same, so are the differences. -/
theorem difference?_eq (h : Mirrored table entries entries') :
    difference? table entries' = difference? table entries := by
  rw [difference?, difference?, h.reading_eq, render, render, h.renderAfter_eq]

theorem expanded_of_expanded (h : Mirrored table entries entries') {i : Nat}
    (hi : entries'[i]?.any (·.isExpanded table) = true) :
    entries[i]?.any (·.isExpanded table) = true := by
  induction h generalizing i with
  | nil => exact hi
  | cons first _ _ ih =>
    cases i with
    | zero => simpa using first.expanded (by simpa using hi)
    | succ i => exact ih hi
  | @remark _ entry' _ comment' _ hrem' _ hkind' =>
    have hcomment : comment'.isExpanded table = false :=
      not_expanded_of_kind_ne (by simp [hkind'])
    rcases i with _ | _ | i
    · simp [not_expanded_of_isRem hrem'] at hi
    · simp [hcomment] at hi
    · simp at hi

/-- Keeping an entry that both share leaves them mirrored. -/
theorem keep (h : Mirrored table entries entries') {i : Nat} (hi : entries'[i]? = entries[i]?) :
    Mirrored table (Listing.keep i entries) (Listing.keep i entries') := by
  induction h generalizing i with
  | nil =>
    rw [keep_nil]
    exact .nil
  | @cons entry entry' entries entries' first hrem others ih =>
    cases i with
    | zero =>
      obtain rfl : entry' = entry := by simpa using hi
      exact .cons ⟨rfl, rfl, rfl, rfl, id⟩ hrem others
    | succ i =>
      refine .cons first (fun h => ?_) (ih (by simpa using hi))
      rw [hrem h]
      exact keep_nil i
  | remark hrem hrem' hkind hkind' hremark =>
    rcases i with _ | _ | i
    · exact .remark hrem hrem' hkind hkind' hremark
    · exact .remark hrem hrem' hkind hkind' hremark
    · simp only [keep_succ_cons, keep_nil]
      exact .remark hrem hrem' hkind hkind' hremark

end Mirrored

/-! ### Settling in step -/

/-- Whoever is blamed among some positions is blamed among fewer of them. -/
theorem blame?_filter {positions : List Nat} {difference i : Nat} {p : Nat → Bool}
    (h : blame? positions difference = some i) (hi : p i = true) :
    blame? (positions.filter p) difference = some i := by
  have swap : (positions.filter p).filter (· ≤ difference) =
      (positions.filter (· ≤ difference)).filter p := by
    rw [List.filter_filter, List.filter_filter]
    simp only [Bool.and_comm]
  rw [blame?, Option.or_eq_some_iff] at h ⊢
  rw [swap]
  rcases h with hlast | ⟨hnone, hfirst⟩
  · left
    obtain ⟨front, heq⟩ := List.getLast?_eq_some_iff.mp hlast
    rw [heq, List.filter_append, List.filter_singleton, hi, cond_true, List.getLast?_concat]
  · right
    refine ⟨by rw [List.getLast?_eq_none_iff.mp hnone]; rfl, ?_⟩
    obtain ⟨hafter, before, after, heq, hbefore⟩ := List.find?_eq_some_iff_append.mp hfirst
    rw [heq, List.filter_append, List.filter_cons_of_pos hi]
    refine List.find?_eq_some_iff_append.mpr ⟨hafter, _, _, rfl, fun j hj => ?_⟩
    exact hbefore j (List.mem_of_mem_filter hj)

theorem Mirrored.expanded_eq (h : Mirrored table entries entries') :
    expanded table entries' =
      (expanded table entries).filter fun i => entries'[i]?.any (·.isExpanded table) := by
  rw [expanded, expanded, h.length_eq, List.filter_filter]
  refine List.filter_congr fun i _ => ?_
  cases hi : entries'[i]?.any (·.isExpanded table) with
  | false => rfl
  | true => rw [h.expanded_of_expanded hi]; rfl

/-- Nobody is to blame among entries that mirror settled ones. -/
theorem Mirrored.culprit?_eq_none (h : Mirrored table entries entries')
    (hnone : culprit? table entries = none) : culprit? table entries' = none := by
  rw [culprit?, h.difference?_eq]
  rw [culprit?] at hnone
  cases hdifference : difference? table entries with
  | none => rfl
  | some difference =>
    rw [hdifference, Option.bind_some] at hnone
    rw [Option.bind_some, h.expanded_eq, eq_nil_of_blame? hnone]
    rfl

/-- The culprit is the same among entries that mirror others, if they share it. -/
theorem Mirrored.culprit?_eq_some (h : Mirrored table entries entries') {i : Nat}
    (hsome : culprit? table entries = some i) (hi : entries'[i]? = entries[i]?) :
    culprit? table entries' = some i := by
  obtain ⟨entry, hfound, hexpanded⟩ := isExpanded_of_culprit? hsome
  rw [culprit?, Option.bind_eq_some_iff] at hsome ⊢
  obtain ⟨difference, hdifference, hblame⟩ := hsome
  refine ⟨difference, h.difference?_eq.trans hdifference, ?_⟩
  rw [h.expanded_eq]
  exact blame?_filter hblame (by rw [hi, hfound]; exact hexpanded)

/-- Entries that mirror others and share those that are kept are settled in the same way. -/
theorem settle_mirrored (h : Mirrored table entries entries')
    (hkept : ∀ i ∈ (settle table entries).2, entries'[i]? = entries[i]?) :
    (settle table entries').2 = (settle table entries).2 ∧
      Mirrored table (settle table entries).1 (settle table entries').1 := by
  fun_induction settle table entries generalizing entries' with
  | case1 entries hnone =>
    rw [settle_of_none (h.culprit?_eq_none hnone)]
    exact ⟨rfl, h⟩
  | case2 entries i hsome settled kept hsettle ih =>
    have hi := hkept i List.mem_cons_self
    rw [settle_of_some (h.culprit?_eq_some hsome hi)]
    have hrest : ∀ j ∈ (settle table (keep i entries)).2,
        (keep i entries')[j]? = (keep i entries)[j]? := by
      intro j hj
      rw [hsettle] at hj
      rw [keep, keep, List.getElem?_modify, List.getElem?_modify,
        hkept j (List.mem_cons_of_mem _ hj)]
    obtain ⟨hseq, hmirrored⟩ := ih (h.keep hi) hrest
    rw [hsettle] at hseq hmirrored
    exact ⟨by rw [hseq], hmirrored⟩

/-! ### Reading a settled listing again -/

/-- What is kept is a keyword, and it is listed as it was typed. -/
theorem exists_of_mem_settle {i : Nat} (h : i ∈ (settle table entries).2) :
    ∃ entry, (settle table entries).1[i]? = some entry ∧ entry.asTyped = true ∧
      entry.lexeme.kind = .keyword := by
  obtain ⟨entry, -, hexpanded, hfound⟩ := exists_expanded_of_mem_settle h
  refine ⟨_, hfound, rfl, Decidable.byContradiction fun hne => ?_⟩
  have hnot : entry.isExpanded table = false := not_expanded_of_kind_ne hne
  rw [hnot] at hexpanded
  contradiction

/-- The lexemes of a listing are those listed, remarks apart. -/
theorem getElem?_relisted {place : Place} (line : LineFrom table place entries) {i : Nat}
    (hi : entries[i]? = some entry) (hkind : entry.lexeme.kind ≠ .comment) :
    (relisted table entries)[i]? = some (entry.listed table) := by
  induction line generalizing i with
  | nil => simp at hi
  | rem _ _ | comment _ _ =>
    rw [relisted_singleton, ← List.map_singleton, List.getElem?_map, hi]
    rfl
  | remark _ hrem hcomment =>
    rw [relisted_of_rem hrem]
    match i with
    | 0 => rw [← Option.some.inj hi]; rfl
    | 1 => exact absurd (Option.some.inj hi ▸ hcomment) hkind
    | i + 2 => simp at hi
  | code _ _ _ hrem _ ih =>
    rw [relisted_of_code hrem]
    cases i with
    | zero => rw [← Option.some.inj hi]; rfl
    | succ i => exact ih hi

section
variable {place : Place} {rest : List Char}

theorem keyword?_listed (law : table.Lawful) (first : Opens table place entry.lexeme rest) :
    (entry.listed table).keyword? table = entry.lexeme.keyword? table := by
  cases hfound : entry.lexeme.keyword? table with
  | none => rw [Entry.listed, spelling_of_none hfound, hfound]
  | some keyword =>
    obtain ⟨hk, -, hmem⟩ := spelling_mem law first hfound
    have hkind : entry.lexeme.kind = .keyword := kind_of_keyword? hfound
    rw [keyword?_of_kind (a := entry.listed table) hkind]
    exact law.lookup?_eq hk hmem

theorem isRem_listed (law : table.Lawful) (first : Opens table place entry.lexeme rest) :
    (entry.listed table).isRem = entry.lexeme.isRem := by
  rw [Bool.eq_iff_iff]
  constructor
  · intro h
    obtain ⟨hkind, htext⟩ := isRem_iff.mp h
    exact isRem_of_spelling law first hkind htext
  · exact fun h => isRem_iff.mpr ⟨(isRem_iff.mp h).1, spelling_of_isRem law h⟩

/-- A lexeme as it is listed mirrors the lexeme. -/
theorem mirrors_listed (law : table.Lawful) (first : Opens table place entry.lexeme rest) :
    Mirrors table ⟨entry.lexeme, false⟩ ⟨entry.listed table, false⟩ := by
  have hkeyword := keyword?_listed law first
  have helim : ((entry.listed table).keyword? table).elim (entry.listed table).text Keyword.name =
      (entry.lexeme.keyword? table).elim entry.lexeme.text Keyword.name := by
    rw [hkeyword]
    cases hfound : entry.lexeme.keyword? table with
    | none => exact spelling_of_none hfound
    | some keyword => rfl
  refine ⟨rfl, isRem_listed law first, ?_, helim, fun h => ?_⟩
  · exact reading_congr rfl (fun _ => helim) fun hne => spelling_of_kind_ne hne
  · simp only [Entry.isExpanded, hkeyword, isRem_listed law first] at h ⊢
    cases hfound : entry.lexeme.keyword? table with
    | none => simp [hfound] at h
    | some keyword =>
      simp only [hfound, Option.any_some, Bool.and_eq_true, bne_iff_ne, Entry.listed,
        Entry.spelling, Option.elim_some] at h ⊢
      refine ⟨h.1, ?_⟩
      split at h
      · exact h.2
      · exact absurd rfl h.2

end

/-- A remark that is set off already is not set off again. -/
theorem remark_remark (comment : Entry) :
    remark [⟨⟨comment.lexeme.kind, remark [comment]⟩, false⟩] = remark [comment] := by
  have hblank : Text.startsBlank (remark [comment]) = true := by
    rw [remark]
    split
    next h => exact h
    next => rfl
  rw [remark, if_pos hblank, List.nil_append]

/-- The lexemes of a listing mirror those it was made from. -/
theorem mirrored_start (law : table.Lawful) {place : Place} (line : LineFrom table place entries) :
    Mirrored table (start (entries.map (·.lexeme))) (start (relisted table entries)) := by
  induction line with
  | nil => exact .nil
  | rem first _ | comment first _ =>
    rw [relisted_singleton]
    exact .cons (mirrors_listed law first) (fun _ => rfl) .nil
  | @remark _ _ comment first hrem hkind =>
    rw [relisted_of_rem hrem]
    exact .remark hrem ((isRem_listed law first).trans hrem) hkind hkind (remark_remark comment)
  | code first _ _ hrem _ ih =>
    rw [relisted_of_code hrem]
    exact .cons (mirrors_listed law first) (fun h => absurd h (by simp [hrem])) ih

end PocketBasic.Listing
