import PocketBasic.Proofs.Lexeme.Undisturbed
import PocketBasic.Proofs.Listing.SpelledInFull

/-! Who keeps the spelling it was typed with. Settling goes on for as long as the listing does not
read back, so the last keyword that it keeps is needed (`settle_kept`). An earlier one need not be:
the blame falls on a keyword near the first difference, and the one that makes the difference
may stand further on. A kept keyword is needed if and only if its full name would disturb a word of
the listing that is left, the name itself among them (`kept_iff`). In a line there are at most as
many of them as keywords that are not spelled in full (`rounds_ofLine`). -/

namespace PocketBasic.Listing

open Lexeme

variable {table : Keyword.Table} {entry : Entry} {entries front back : List Entry}

/-- The listing of the entries means what their lexemes do. -/
def ReadsBack (table : Keyword.Table) (entries : List Entry) : Prop :=
  Reading.ofText table (render table entries) = entries.map (·.lexeme.reading table)

instance (table : Keyword.Table) (entries : List Entry) : Decidable (ReadsBack table entries) :=
  inferInstanceAs (Decidable (_ = _))

theorem readsBack_iff : ReadsBack table entries ↔ difference? table entries = none := by
  rw [difference?, firstDifference?_eq_none, ReadsBack, eq_comm]

/-! ### Listings that read back -/

theorem Lists.listed (entry : Entry) : Lists table entry (entry.listed table) :=
  ⟨rfl, fun _ => rfl, rfl⟩

theorem forall₂_lists_relisted {place : Place} (line : LineFrom table place entries) :
    List.Forall₂ (Lists table) entries (relisted table entries) := by
  induction line with
  | nil => exact .nil
  | rem _ _ | comment _ _ =>
    rw [relisted_singleton]
    exact .cons (.listed _) .nil
  | remark _ hrem hkind =>
    rw [relisted_of_rem hrem]
    refine .cons (.listed _) (.cons ⟨rfl, fun hne => absurd hkind hne, ?_⟩ .nil)
    rw [content_remark, spelling_of_comment hkind]
  | code _ _ _ hrem _ ih =>
    rw [relisted_of_code hrem]
    exact .cons (.listed _) ih

theorem not_blank_spelling (law : table.Lawful) {place : Place} {rest : List Char}
    (first : Opens table place entry.lexeme rest)
    (h : ∀ c ∈ entry.lexeme.text, Text.isBlank c = false) :
    ∀ c ∈ entry.spelling table, Text.isBlank c = false := by
  rcases spelling_eq_or_mem law first with heq | ⟨keyword, hk, -, hmem⟩
  · rwa [heq]
  · exact (law.regular hk).not_blank hmem

/-- What entries list holds no blanks in the code. -/
theorem Lists.folded (law : table.Lawful) {lexemes : List Lexeme} {place : Place}
    (h : List.Forall₂ (Lists table) entries lexemes)
    (scans : Scans table place (entries.map (·.lexeme)))
    (folded : Folded (entries.map (·.lexeme))) : Folded lexemes := by
  induction h generalizing place with
  | nil => exact folded
  | @cons entry lexeme entries lexemes first others ih =>
    cases scans with
    | cons opens othersTyped =>
      intro other hmem hcode
      rcases List.mem_cons.mp hmem with rfl | hmem
      · have hcomment : other.kind ≠ .comment := by
          intro hkind
          simp [isVerbatim, hkind] at hcode
        rw [first.text_eq hcomment]
        refine not_blank_spelling law opens (folded.head ?_)
        rwa [isVerbatim, ← first.kind_eq]
      · exact ih othersTyped folded.tail other hmem hcode

/-- A listing reads back if and only if the lexemes that it lists may follow each other. -/
theorem readsBack_iff_scans (law : table.Lawful) (line : OfLine table entries) :
    ReadsBack table entries ↔ Scans table .lineStart (relisted table entries) := by
  rw [readsBack_iff]
  constructor
  · intro h
    rw [← ofText_render law line h]
    exact (ofText_spec law _).1
  · intro scans
    have lists := forall₂_lists_relisted (line.lineFrom law)
    have hkept := kept_renderAfter law (line.lineFrom law)
      lists scans (Lists.folded law lists line.scans line.folded) (by decide) none
    have hreading := (mirrored_start law (line.lineFrom law)).reading_eq
    simp only [start, List.map_map, Function.comp_def] at hreading
    rw [← readsBack_iff, ReadsBack, Reading.ofText, render, ofText_eq_of_scans law scans hkept.symm]
    exact hreading

/-! ### Positions -/

/-- Where nothing is kept yet, a position that is taken out again makes a difference to its own
entry only. -/
theorem keepAll_filter_ne (positions : List Nat) (i : Nat)
    (h : ∀ entry ∈ entries, entry.asTyped = false) :
    keepAll (positions.filter (· != i)) entries =
      (keepAll positions entries).modify i ({ · with asTyped := false }) := by
  refine List.ext_getElem? fun j => ?_
  rw [List.getElem?_modify, getElem?_keepAll, getElem?_keepAll]
  cases hj : entries[j]? with
  | none => rfl
  | some entry =>
    have htyped := h entry (List.mem_of_getElem? hj)
    rcases eq_or_ne i j with rfl | hne
    · simp [htyped]
    · simp [hne, hne.symm]

/-! ### Settling -/

/-- Settling keeps the positions that it names, and it names another one only as long as the
listing does not read back. -/
theorem settle_kept (table : Keyword.Table) (entries : List Entry) :
    (settle table entries).1 = keepAll (settle table entries).2 entries ∧
      ∀ front i back, (settle table entries).2 = front ++ i :: back →
        ¬ ReadsBack table (keepAll front entries) := by
  have rounds := rounds_settle table entries
  refine ⟨rounds.eq_keepAll, fun front i back heq => ?_⟩
  rw [heq] at rounds
  obtain ⟨between, hfront, blamed⟩ := rounds.exists_front
  rw [← hfront.eq_keepAll, readsBack_iff]
  intro hnone
  rw [culprit?, hnone] at blamed
  contradiction

/-! ### What a full name disturbs -/

/-- Nothing in front of a keyword but its lexemes is listed. -/
theorem relisted_append {place : Place} (line : LineFrom table place (front ++ entry :: back))
    (hkind : entry.lexeme.kind = .keyword) :
    relisted table (front ++ entry :: back) =
        front.map (Entry.listed table) ++ relisted table (entry :: back) ∧
      ∀ first ∈ front, first.lexeme.isRem = false := by
  induction front generalizing place with
  | nil => simp
  | cons first front ih =>
    rw [List.cons_append] at line ⊢
    generalize hothers : front ++ entry :: back = others at line
    have hmem : entry ∈ others := by simp [← hothers]
    cases line with
    | rem | comment => contradiction
    | remark _ _ hcomment =>
      rw [← List.mem_singleton.mp hmem, hkind] at hcomment
      contradiction
    | code _ _ _ hrem line =>
      subst hothers
      obtain ⟨hrelisted, hfront⟩ := ih line
      rw [relisted_of_code hrem, hrelisted]
      exact ⟨rfl, List.forall_mem_cons.mpr ⟨hrem, hfront⟩⟩

theorem ne_remWord_of_isRem {lexeme : Lexeme} (hkind : lexeme.kind = .keyword)
    (h : lexeme.isRem = false) : lexeme.text ≠ remWord := by
  intro htext
  rw [isRem_iff.mpr ⟨hkind, htext⟩] at h
  contradiction

/-- A listing that reads back still does with a keyword of it spelled in full, unless the name
disturbs a word. -/
theorem readsBack_modify_iff (law : table.Lawful) {keyword : Keyword}
    (line : OfLine table (front ++ entry :: back))
    (reads : ReadsBack table (front ++ entry :: back))
    (hfound : entry.lexeme.keyword? table = some keyword) (hrem : entry.lexeme.isRem = false) :
    ∃ before lexeme after,
      Lexeme.ofText table (render table (front ++ entry :: back)) = before ++ lexeme :: after ∧
        before.length = front.length ∧ lexeme.keyword? table = some keyword ∧
        (ReadsBack table (front ++ { entry with asTyped := false } :: back) ↔
          Undisturbed table (before ++ [⟨.keyword, keyword.name⟩]) (written after)) := by
  have hkind : entry.lexeme.kind = .keyword := kind_of_keyword? hfound
  have hlexemes : (front ++ { entry with asTyped := false } :: back).map (·.lexeme) =
      (front ++ entry :: back).map (·.lexeme) := by simp
  have line' := line.congr hlexemes
  obtain ⟨hrelisted, hfront⟩ := relisted_append (line.lineFrom law) hkind
  obtain ⟨hrelisted', -⟩ := relisted_append (line'.lineFrom law) hkind
  have hscans := (readsBack_iff_scans law line).mp reads
  have opens {other : Entry} (hmem : other ∈ front ++ entry :: back) :
      ∃ place rest, Opens table place other.lexeme rest :=
    line.scans.opens_of_mem (List.mem_map_of_mem hmem)
  have hentry : entry ∈ front ++ entry :: back := by simp
  obtain ⟨place, rest, first⟩ := opens hentry
  obtain ⟨hk, -, hspelling⟩ := spelling_mem law first hfound
  have hname : ({ entry with asTyped := false } : Entry).listed table =
      ⟨.keyword, keyword.name⟩ := by
    simp [Entry.listed, Entry.spelling, hkind, hfound]
  have hlisted : entry.listed table = ⟨.keyword, entry.spelling table⟩ := by
    rw [Entry.listed, hkind]
  have hnameRem : (({ entry with asTyped := false } : Entry).listed table).isRem =
      entry.lexeme.isRem := isRem_listed law first
  have hlistedRem := isRem_listed law first
  rw [hname, hrem] at hnameRem
  rw [hrem, hlisted] at hlistedRem
  have hfrontRem : ∀ lexeme ∈ front.map (Entry.listed table), lexeme.isRem = false := by
    intro lexeme hmem
    obtain ⟨other, hother, rfl⟩ := List.mem_map.mp hmem
    obtain ⟨_, _, first⟩ := opens (List.mem_append_left _ hother)
    rw [isRem_listed law first, hfront other hother]
  refine ⟨front.map (Entry.listed table), entry.listed table, relisted table back, ?_,
    List.length_map .., by rw [keyword?_listed law first, hfound], ?_⟩
  · rw [ofText_render law line (readsBack_iff.mp reads), hrelisted, relisted_of_code hrem]
  · have hrem' : ({ entry with asTyped := false } : Entry).lexeme.isRem = false := hrem
    rw [hrelisted, relisted_of_code hrem, hlisted] at hscans
    rw [readsBack_iff_scans law line', hrelisted', relisted_of_code hrem', hname]
    exact scans_exchange_iff law hk hspelling (law.regular hk).name_mem_spellings
      (ne_remWord_of_isRem rfl hlistedRem) (ne_remWord_of_isRem rfl hnameRem) hfrontRem hscans

theorem exists_keyword_of_isExpanded (h : entry.isExpanded table = true) :
    entry.lexeme.isRem = false ∧ ∃ keyword, entry.lexeme.keyword? table = some keyword := by
  simp only [Entry.isExpanded, Bool.and_eq_true, Bool.not_eq_true', Option.any_eq_true] at h
  obtain ⟨⟨-, hrem⟩, keyword, hfound, -⟩ := h
  exact ⟨hrem, keyword, hfound⟩

/-- A keyword that settling keeps could be spelled in full after all if and only if its full name
disturbs no word. -/
theorem readsBack_keepAll_filter_iff (law : table.Lawful) {i : Nat}
    (htyped : ∀ entry ∈ entries, entry.asTyped = false)
    (line : OfLine table (settle table entries).1)
    (reads : ReadsBack table (settle table entries).1) (hi : i ∈ (settle table entries).2) :
    ∃ before lexeme after keyword,
      Lexeme.ofText table (render table (settle table entries).1) = before ++ lexeme :: after ∧
        before.length = i ∧ lexeme.keyword? table = some keyword ∧
        (ReadsBack table (keepAll ((settle table entries).2.filter (· != i)) entries) ↔
          Undisturbed table (before ++ [⟨.keyword, keyword.name⟩]) (written after)) := by
  obtain ⟨hsettled, -⟩ := settle_kept table entries
  obtain ⟨entry, -, hexpanded, hentry⟩ := exists_expanded_of_mem_settle hi
  obtain ⟨hrem, keyword, hkeyword⟩ := exists_keyword_of_isExpanded hexpanded
  rw [keepAll_filter_ne _ i htyped, ← hsettled]
  generalize (settle table entries).1 = settled at hentry line reads ⊢
  obtain ⟨hlt, hget⟩ := List.getElem?_eq_some_iff.mp hentry
  have hcut : settled =
      settled.take i ++ { entry with asTyped := true } :: settled.drop (i + 1) := by
    rw [← hget, List.getElem_cons_drop, List.take_append_drop]
  have hmodify : settled.modify i ({ · with asTyped := false }) =
      settled.take i ++ { entry with asTyped := false } :: settled.drop (i + 1) := by
    rw [List.modify_eq_take_cons_drop hlt, hget]
  rw [hcut] at line reads
  obtain ⟨before, lexeme, after, htext, hlength, hname, hiff⟩ :=
    readsBack_modify_iff law line reads hkeyword hrem
  rw [← hcut] at htext
  rw [hmodify]
  refine ⟨before, lexeme, after, keyword, htext, ?_, hname, hiff⟩
  rw [hlength, List.length_take]
  omega

/-- The listing of a line keeps some positions as they were typed, one after another for as long as
it does not read back, and then it does. With one of these keywords spelled in full it reads back
again if and only if the full name disturbs no word of the listing. -/
theorem kept_iff (tiers : List Tier) {line : List Char} (h : Inline line) :
    let table := Keyword.Table.ofTiers tiers
    let lexemes := Lexeme.ofText table (Text.trim (LineNumber.split (Text.trim line)).2)
    let listing := Listing.ofLine table line
    listing.entries = keepAll listing.kept (start lexemes) ∧ ReadsBack table listing.entries ∧
      (∀ front i back, listing.kept = front ++ i :: back →
        ¬ ReadsBack table (keepAll front (start lexemes))) ∧
      ∀ i ∈ listing.kept, ∃ before lexeme after keyword,
        Lexeme.ofText table (render table listing.entries) = before ++ lexeme :: after ∧
          before.length = i ∧ lexeme.keyword? table = some keyword ∧
          (ReadsBack table (keepAll (listing.kept.filter (· != i)) (start lexemes)) ↔
            Undisturbed table (before ++ [⟨.keyword, keyword.name⟩]) (written after)) := by
  intro table lexemes listing
  have law : table.Lawful := Keyword.Table.lawful_ofTiers tiers
  obtain ⟨hsettled, hkept⟩ := settle_kept table (start lexemes)
  obtain ⟨hculprit, hlexemes⟩ := settle_spec table (start lexemes)
  rw [map_lexeme_start] at hlexemes
  have ofLine : OfLine table (settle table (start lexemes)).1 :=
    ofLine_of_ofText law (inline_body h) hlexemes
  have reads : ReadsBack table (settle table (start lexemes)).1 :=
    readsBack_iff.mpr (difference?_eq_none law ofLine hculprit)
  have htyped : ∀ entry ∈ start lexemes, entry.asTyped = false := by
    simp [start]
  exact ⟨hsettled, reads, hkept, fun i hi =>
    readsBack_keepAll_filter_iff law htyped ofLine reads hi⟩

/-- `RES.M` keeps `RES.`, since `RESTORE M` would hold a `REM`. -/
theorem kept_iff_restore :
    let table := Keyword.Table.ofTiers [.core]
    let line := ['R', 'E', 'S', '.', 'M']
    let lexemes := Lexeme.ofText table (Text.trim (LineNumber.split (Text.trim line)).2)
    let listing := Listing.ofLine table line
    Inline line ∧
      listing.entries = keepAll listing.kept (start lexemes) ∧ ReadsBack table listing.entries ∧
      (∀ front i back, listing.kept = front ++ i :: back →
        ¬ ReadsBack table (keepAll front (start lexemes))) ∧
      ∀ i ∈ listing.kept, ∃ before lexeme after keyword,
        Lexeme.ofText table (render table listing.entries) = before ++ lexeme :: after ∧
          before.length = i ∧ lexeme.keyword? table = some keyword ∧
          (ReadsBack table (keepAll (listing.kept.filter (· != i)) (start lexemes)) ↔
            Undisturbed table (before ++ [⟨.keyword, keyword.name⟩]) (written after)) :=
  ⟨by decide, kept_iff [.core] (by decide)⟩

set_option maxRecDepth 10000 in
/-- `RES.M.` keeps both of its keywords, and `RES. MEM` reads back: it is `M.` that is blamed first,
and `RES.` has to be kept all the same. -/
theorem readsBack_without_kept :
    let table := Keyword.Table.ofTiers [.core]
    let line := ['R', 'E', 'S', '.', 'M', '.']
    let lexemes := Lexeme.ofText table (Text.trim (LineNumber.split (Text.trim line)).2)
    let kept := (Listing.ofLine table line).kept
    Inline line ∧ kept = [1, 0] ∧
      ReadsBack table (keepAll (kept.filter (· != 1)) (start lexemes)) := by
  decide +kernel

/-! ### How many are kept -/

/-- Only keywords that are not spelled in full are expanded. -/
theorem countP_start_le (law : table.Lawful) (lexemes : List Lexeme) :
    (start lexemes).countP (·.isExpanded table) ≤
      lexemes.countP fun lexeme => !lexeme.isSpelledInFull table := by
  rw [start, List.countP_map]
  refine List.countP_mono_left fun lexeme _ hexpanded => ?_
  rw [Function.comp_apply] at hexpanded
  rw [Bool.not_eq_true', Bool.eq_false_iff]
  intro hfull
  rw [not_expanded_of_isSpelledInFull law hfull] at hexpanded
  contradiction

/-- Each round of settling a line marks a token of it, a keyword that is expanded and that no round
has marked before. So there are at most as many rounds as there are keywords in the line that are
not spelled in full, and after the rounds for the positions that are kept there is no culprit. -/
theorem rounds_ofLine (tiers : List Tier) (line : List Char) :
    let table := Keyword.Table.ofTiers tiers
    let tokens := Token.tokenize table (Text.trim (LineNumber.split (Text.trim line)).2)
    let typed := start (tokens.map (·.toLexeme))
    let listing := Listing.ofLine table line
    (∀ marked entries, Rounds table typed marked entries →
      entries = keepAll marked typed ∧ marked <+: listing.kept ∧
        marked.length ≤ tokens.countP (fun token => !token.isSpelledInFull table) ∧
        ∀ i, culprit? table entries = some i → i ∉ marked ∧
          ∃ token, tokens[i]? = some token ∧
            Entry.isExpanded table ⟨token.toLexeme, false⟩ = true) ∧
      Rounds table typed listing.kept listing.entries ∧
      culprit? table listing.entries = none := by
  intro table tokens typed listing
  have law : table.Lawful := Keyword.Table.lawful_ofTiers tiers
  have hlexemes : tokens.map (·.toLexeme) =
      Lexeme.ofText table (Text.trim (LineNumber.split (Text.trim line)).2) :=
    Token.map_toLexeme_tokenize_of_isTrimmed law (Text.isTrimmed_trim _)
  have hlisting : settle table typed = (listing.entries, listing.kept) := by
    rw [show typed = start _ from congrArg start hlexemes]
    rfl
  refine ⟨fun marked entries rounds => ⟨rounds.eq_keepAll, ?_, ?_, fun i blamed => ?_⟩, ?_, ?_⟩
  · have hsettle := rounds.settle_eq
    rw [hlisting] at hsettle
    rw [(Prod.mk.inj hsettle).2]
    exact List.prefix_append ..
  · have hrounds := rounds.length_add_countP
    have hcount := countP_start_le law (tokens.map (·.toLexeme))
    rw [List.countP_map, Function.comp_def] at hcount
    exact (Nat.le_of_add_right_le (Nat.le_of_eq hrounds)).trans hcount
  · obtain ⟨hnew, entry, hentry, hexpanded⟩ := rounds.culprit_spec blamed
    have htyped : typed[i]? = (tokens[i]?).map fun token => ⟨token.toLexeme, false⟩ := by
      simp [typed, start, Function.comp_def]
    rw [htyped, Option.map_eq_some_iff] at hentry
    obtain ⟨token, htoken, rfl⟩ := hentry
    exact ⟨hnew, token, htoken, hexpanded⟩
  · have rounds := rounds_settle table typed
    rwa [hlisting] at rounds
  · have hculprit := (settle_spec table typed).1
    rwa [hlisting] at hculprit

set_option maxRecDepth 10000 in
/-- `RES.M.` has two keywords that are not spelled in full, and both rounds that they allow for are
needed. The first one marks `M.`. -/
theorem rounds_ofLine_restore :
    let table := Keyword.Table.ofTiers [.core]
    let line := ['R', 'E', 'S', '.', 'M', '.']
    let tokens := Token.tokenize table (Text.trim (LineNumber.split (Text.trim line)).2)
    let typed := start (tokens.map (·.toLexeme))
    let listing := Listing.ofLine table line
    listing.kept = [1, 0] ∧ tokens.countP (fun token => !token.isSpelledInFull table) = 2 ∧
      (Rounds table typed [1] (keep 1 typed) ∧ culprit? table (keep 1 typed) = some 0 ∧
        [1] <+: listing.kept ∧ 0 ∉ [1] ∧ ∃ token, tokens[0]? = some token ∧
          Entry.isExpanded table ⟨token.toLexeme, false⟩ = true) ∧
      Rounds table typed [1, 0] listing.entries ∧ culprit? table listing.entries = none := by
  intro table line tokens typed listing
  obtain ⟨hkept, hcount⟩ : listing.kept = [1, 0] ∧
      tokens.countP (fun token => !token.isSpelledInFull table) = 2 := by decide +kernel
  obtain ⟨hrounds, hlast, hculprit⟩ := rounds_ofLine [.core] line
  have hboth : Rounds table typed listing.kept listing.entries := hlast
  rw [hkept, ← List.singleton_append] at hboth
  obtain ⟨between, rounds, blamed⟩ := hboth.exists_front
  obtain ⟨rfl, hprefix, -, hmarks⟩ := hrounds [1] between rounds
  exact ⟨hkept, hcount, ⟨rounds, blamed, hprefix, hmarks 0 blamed⟩, hboth, hculprit⟩

end PocketBasic.Listing
