import PocketBasic.Proofs.Lexeme.Line
import PocketBasic.Proofs.Lexeme.Longest

/-! The rules for the kinds of lexemes. A rule looks at the text of a lexeme, at what stands in
front of it and at what follows, and at nothing that a scanner keeps while it reads. Most kinds are
marked by their first characters; a name is what nothing else marks. The rules leave no choice, and
so they are the grammar: the lexemes that a scanner reads are those that obey them
(`scans_iff_obeys`). -/

namespace PocketBasic.Lexeme

/-- Whether a line starts after the text. -/
def startsLine (before : List Char) : Bool :=
  before.getLast?.all isTerminator

/-- The lexeme, with `before` in front of it and `rest` after it, is one that its first characters
mark. Outside of a comment, these come before names. -/
inductive Marked (table : Keyword.Table) (before : List Char) : Lexeme → List Char → Prop where
  | newline {text rest : List Char} (h : Longest IsLineEnd text rest) :
      Marked table before ⟨.newline, text⟩ rest
  | lineNumber {text rest : List Char} (hstart : startsLine before = true)
      (h : Longest IsDigits text rest) : Marked table before ⟨.lineNumber, text⟩ rest
  | number {text rest : List Char} (hstart : startsLine before = true → startsDigit text = false)
      (h : Longest IsNumber text rest) : Marked table before ⟨.number, text⟩ rest
  | string {text rest : List Char} (h : Quoted text rest) :
      Marked table before ⟨.string, '"' :: text⟩ rest
  | comment {text rest : List Char} (hline : Inline text) (hend : endsLine rest = true) :
      Marked table before ⟨.comment, '\'' :: text⟩ rest
  | rem {rest : List Char} : Marked table before ⟨.keyword, remWord⟩ rest
  | keyword {text rest : List Char} (hrem : ¬ remWord <+: text ++ rest)
      (h : Longest (fun word => table.Spells word ∧ Stands word (text ++ rest)) text rest) :
      Marked table before ⟨.keyword, text⟩ rest
  | symbol {symbol : Symbol} {rest : List Char} (h : Longest IsSymbol symbol.text rest) :
      Marked table before ⟨.symbol symbol, symbol.text⟩ rest

/-- The rule that the lexeme obeys, with `before` in front of it, `previous` as the last lexeme
there, and `rest` after it. Right after a `REM` everything up to the end of the line is a
comment. -/
inductive Rule (table : Keyword.Table) (before : List Char) (previous : Option Lexeme) :
    Lexeme → List Char → Prop where
  | marked {lexeme : Lexeme} {rest : List Char} (h : Marked table before lexeme rest)
      (hprevious : previous = some ⟨.keyword, remWord⟩ → lexeme.kind = .newline) :
      Rule table before previous lexeme rest
  | remark {text rest : List Char} (hprevious : previous = some ⟨.keyword, remWord⟩)
      (hne : text ≠ []) (hline : Inline text) (hend : endsLine rest = true) :
      Rule table before previous ⟨.comment, text⟩ rest
  | identifier {text rest : List Char} (hprevious : previous ≠ some ⟨.keyword, remWord⟩)
      (h : Longest IsName text rest)
      (hnone : ∀ lexeme after, lexeme.text ++ after = text ++ rest →
        ¬ Marked table before lexeme after) :
      Rule table before previous ⟨.identifier, text⟩ rest

/-- Every one of the lexemes obeys its rule, with `before` and `previous` in front of all. -/
def Obeys (table : Keyword.Table) (before : List Char) (previous : Option Lexeme)
    (lexemes : List Lexeme) : Prop :=
  ∀ front lexeme back, lexemes = front ++ lexeme :: back →
    Rule table (before ++ written front) (front.getLast?.or previous) lexeme (written back)

/-- A reader stands at the place when it has read `before`, with `previous` as the last lexeme. -/
structure Place.Follows (place : Place) (before : List Char) (previous : Option Lexeme) :
    Prop where
  lineStart_iff : place = .lineStart ↔ startsLine before = true
  afterRem_iff : place = .afterRem ↔ previous = some ⟨.keyword, remWord⟩

variable {table : Keyword.Table} {place : Place} {before rest : List Char}
  {previous : Option Lexeme} {lexeme : Lexeme} {lexemes : List Lexeme}

theorem obeys_nil (table : Keyword.Table) (before : List Char) (previous : Option Lexeme) :
    Obeys table before previous [] := by
  intro front lexeme back h
  cases front <;> contradiction

theorem obeys_cons_iff :
    Obeys table before previous (lexeme :: lexemes) ↔
      Rule table before previous lexeme (written lexemes) ∧
        Obeys table (before ++ lexeme.text) (some lexeme) lexemes := by
  have hlast (front : List Lexeme) :
      (lexeme :: front).getLast?.or previous = front.getLast?.or (some lexeme) := by
    rw [List.getLast?_cons]
    cases front.getLast? <;> rfl
  constructor
  · intro h
    refine ⟨?_, fun front other back heq => ?_⟩
    · simpa using h [] lexeme lexemes rfl
    · have hrule := h (lexeme :: front) other back (by rw [heq]; rfl)
      rwa [hlast, written_cons, ← List.append_assoc] at hrule
  · rintro ⟨first, others⟩ front other back heq
    cases front with
    | nil =>
      obtain ⟨rfl, rfl⟩ := List.cons.inj heq
      simpa using first
    | cons _ front =>
      obtain ⟨rfl, htail⟩ := List.cons.inj heq
      rw [hlast, written_cons, ← List.append_assoc]
      exact others front other back htail

/-! ### Where a reader stands -/

theorem startsLine_concat (before : List Char) (c : Char) :
    startsLine (before ++ [c]) = isTerminator c := by
  simp [startsLine]

theorem follows_start : Place.lineStart.Follows [] none where
  lineStart_iff := iff_of_true rfl rfl
  afterRem_iff := by simp

/-- Where a reader stands after a lexeme shows in the lexeme. -/
theorem Opens.follows (law : table.Lawful) (first : Opens table place lexeme rest)
    (before : List Char) : lexeme.placeAfter.Follows (before ++ lexeme.text) (some lexeme) := by
  obtain ⟨front, last, hlast⟩ :=
    (List.eq_nil_or_concat lexeme.text).resolve_left (first.text_ne_nil law)
  have hstarts : startsLine (before ++ lexeme.text) = isTerminator last := by
    rw [hlast, List.concat_eq_append, ← List.append_assoc, startsLine_concat]
  have hmem : last ∈ lexeme.text := by simp [hlast]
  rcases eq_or_ne lexeme.kind .newline with hline | hline
  · have hplace : lexeme.placeAfter = .lineStart := by rw [placeAfter, if_pos hline]
    have hterminator := (first.newline_cases hline).2 last hmem
    rw [hplace]
    refine ⟨iff_of_true rfl (hstarts.trans hterminator), iff_of_false (by simp) fun h => ?_⟩
    rw [Option.some.inj h] at hline
    contradiction
  · have hterminator := first.inline law hline last hmem
    have hnot : startsLine (before ++ lexeme.text) ≠ true := by simp [hstarts, hterminator]
    cases hisRem : lexeme.isRem with
    | true =>
      rw [placeAfter_eq_afterRem hisRem]
      exact ⟨iff_of_false (by simp) hnot, iff_of_true rfl (congrArg some (eq_of_isRem hisRem))⟩
    | false =>
      rw [placeAfter_eq_inLine hline hisRem]
      refine ⟨iff_of_false (by simp) hnot, iff_of_false (by simp) fun h => ?_⟩
      rw [Option.some.inj h] at hisRem
      contradiction

/-! ### The rules are the grammar -/

/-- A lexeme that is marked is read as what it is marked as. -/
theorem Marked.opens (h : Marked table before lexeme rest) (follows : place.Follows before previous)
    (hplace : place = .afterRem → lexeme.kind = .newline) : Opens table place lexeme rest := by
  have hcode (hline : lexeme.kind ≠ .newline) : place ≠ .afterRem :=
    fun hafter => hline (hplace hafter)
  cases h with
  | newline h =>
    rcases longest_isLineEnd_iff.mp h with rfl | ⟨rfl, hhead⟩ | rfl
    exacts [.crlf, .cr hhead, .lf]
  | lineNumber hstart h =>
    rw [follows.lineStart_iff.mpr hstart]
    exact .lineNumber h.shaped.1 h.shaped.2 (longest_isDigits_iff.mp h).2
  | number hstart h =>
    have hafter : place ≠ .afterRem := hcode nofun
    obtain ⟨whole, fraction, exponent, rfl, numeral, hdigit⟩ := h.exists_numeral
    cases whole with
    | nil =>
      obtain ⟨c, digits, rfl⟩ := hdigit rfl
      exact .fractional hafter numeral (List.cons_ne_nil c digits)
    | cons d whole =>
      have hd : d.isDigit = true := numeral.isWhole d List.mem_cons_self
      have hline : place ≠ .lineStart := fun hline => by
        have hnot : d.isDigit = false := hstart (follows.lineStart_iff.mp hline)
        rw [hd] at hnot
        contradiction
      have hinLine : place = .inLine := by
        cases place <;> first | rfl | contradiction
      rw [hinLine]
      exact .number numeral (List.cons_ne_nil d whole)
  | string h => exact .string (hcode nofun) h
  | comment hline hend => exact .comment (hcode nofun) hline hend
  | rem => exact .rem (hcode nofun)
  | keyword hrem h =>
    refine .keyword (hcode nofun) h.shaped.1 hrem h.shaped.2 ?_
    exact fun word hspells hstands => h.longest word ⟨hspells, hstands⟩ hstands.isPrefix
  | @symbol symbol _ h =>
    have hafter : place ≠ .afterRem := hcode nofun
    rcases longest_isSymbol_iff.mp h with ⟨c, d, htext⟩ | ⟨c, htext, hpair⟩
    · rw [htext]
      exact .pair hafter (Symbol.ofPair?_eq_some_iff.mpr htext)
    · rw [htext]
      exact .mark hafter (Symbol.ofChar?_eq_some_iff.mpr htext) hpair

theorem Marked.kind_ne (h : Marked table before lexeme rest) : lexeme.kind ≠ .identifier := by
  cases h <;> simp

/-- Two lexemes that are read at the same place of the same text are the same. -/
theorem Opens.unique (law : table.Lawful) {other : Lexeme} {rest' : List Char}
    (first : Opens table place lexeme rest) (second : Opens table place other rest')
    (heq : lexeme.text ++ rest = other.text ++ rest') : lexeme = other ∧ rest = rest' := by
  obtain ⟨c, tail, htext, hhead⟩ := head_of_opens law first
  obtain ⟨d, tail', htext', hhead'⟩ := head_of_opens law second
  rw [htext, htext', List.cons_append, List.cons_append] at heq
  obtain ⟨rfl, htails⟩ := List.cons.inj heq
  rw [htails, hhead'] at hhead
  obtain ⟨hkind, hlength⟩ := Prod.mk.inj hhead
  obtain ⟨rfl, rfl⟩ := List.append_inj htails hlength.symm
  have htexts : lexeme.text = other.text := htext.trans htext'.symm
  cases lexeme
  cases other
  exact ⟨congrArg₂ _ hkind.symm htexts, rfl⟩

/-- Something is read first in every text that is not empty. -/
theorem exists_opens (law : table.Lawful) (place : Place) {text : List Char} (hne : text ≠ []) :
    ∃ lexeme rest, Opens table place lexeme rest ∧ lexeme.text ++ rest = text := by
  obtain ⟨c, tail, rfl⟩ := List.exists_cons_of_ne_nil hne
  exact ⟨_, _, opens_head law place c tail, by simp⟩

/-- What is read obeys its rule. -/
theorem Opens.rule (law : table.Lawful) (first : Opens table place lexeme rest)
    (follows : place.Follows before previous) : Rule table before previous lexeme rest := by
  have original := first
  have marked (h : Marked table before lexeme rest) (hplace : place ≠ .afterRem) :
      Rule table before previous lexeme rest :=
    .marked h fun hprevious => absurd (follows.afterRem_iff.mpr hprevious) hplace
  cases first with
  | crlf => exact .marked (.newline (longest_isLineEnd_iff.mpr (.inl rfl))) fun _ => rfl
  | cr h =>
    exact .marked (.newline (longest_isLineEnd_iff.mpr (.inr (.inl ⟨rfl, h⟩)))) fun _ => rfl
  | lf => exact .marked (.newline (longest_isLineEnd_iff.mpr (.inr (.inr rfl)))) fun _ => rfl
  | remark hne hline hend => exact .remark (follows.afterRem_iff.mp rfl) hne hline hend
  | lineNumber hne hdigits hrest =>
    refine marked (.lineNumber (follows.lineStart_iff.mp rfl) ?_) (by simp)
    exact longest_isDigits_iff.mpr ⟨⟨hne, hdigits⟩, hrest⟩
  | number numeral hwhole =>
    refine marked (.number (fun hstart => ?_) ?_) (by simp)
    · exact absurd (follows.lineStart_iff.mpr hstart) (by simp)
    · exact numeral.longest fun hnil => absurd hnil hwhole
  | @fractional _ digits exponent _ hplace numeral hdigits =>
    refine marked (.number (fun _ => rfl) ?_) hplace
    obtain ⟨c, digits, rfl⟩ := List.exists_cons_of_ne_nil hdigits
    exact numeral.longest fun _ => ⟨c, digits, rfl⟩
  | string hplace h => exact marked (.string h) hplace
  | comment hplace hline hend => exact marked (.comment hline hend) hplace
  | rem hplace => exact marked .rem hplace
  | keyword hplace hspells hrem hstands hlongest =>
    refine marked (.keyword hrem ⟨⟨hspells, hstands⟩, ?_⟩) hplace
    exact fun word h _ => hlongest word h.1 h.2
  | pair hplace h =>
    have htext := Symbol.ofPair?_eq_some_iff.mp h
    rw [← htext] at marked ⊢
    exact marked (.symbol (longest_isSymbol_iff.mpr (.inl ⟨_, _, htext⟩))) hplace
  | mark hplace h hpair =>
    have htext := Symbol.ofChar?_eq_some_iff.mp h
    rw [← htext] at marked ⊢
    exact marked (.symbol (longest_isSymbol_iff.mpr (.inr ⟨_, htext, hpair⟩))) hplace
  | identifier hplace hc hmark h hword =>
    refine .identifier (fun hprevious => hplace (follows.afterRem_iff.mpr hprevious))
      (longest_isName_iff.mpr h) fun other after heq hmarked => ?_
    have second := hmarked.opens follows fun hafter => absurd hafter hplace
    obtain ⟨rfl, -⟩ := second.unique law original heq
    exact hmarked.kind_ne rfl

/-- A lexeme that obeys its rule is read. -/
theorem Rule.opens (law : table.Lawful) (h : Rule table before previous lexeme rest)
    (follows : place.Follows before previous) : Opens table place lexeme rest := by
  cases h with
  | marked h hprevious =>
    exact h.opens follows fun hafter => hprevious (follows.afterRem_iff.mp hafter)
  | remark hprevious hne hline hend =>
    rw [follows.afterRem_iff.mpr hprevious]
    exact .remark hne hline hend
  | @identifier text _ hprevious h hnone =>
    -- what is read here is neither marked nor a comment, so it is a name, and there is one only
    have hne : text ≠ [] := by
      rintro rfl
      rcases h.shaped with ⟨c, hc⟩ | ⟨c, hc, -⟩ <;> contradiction
    have hwhole : text ++ rest ≠ [] := fun hnil => hne (List.append_eq_nil_iff.mp hnil).1
    obtain ⟨lexeme, after, first, heq⟩ := exists_opens law place hwhole
    cases first.rule law follows with
    | marked hmarked => exact absurd hmarked (hnone _ _ heq)
    | remark hremark => exact absurd hremark hprevious
    | identifier _ hname =>
      obtain ⟨rfl, rfl⟩ := hname.unique h heq
      exact first

/-- What a reader reads are the lexemes that obey the rules. -/
theorem scans_iff_obeys (law : table.Lawful) (follows : place.Follows before previous) :
    Scans table place lexemes ↔ Obeys table before previous lexemes := by
  induction lexemes generalizing place before previous with
  | nil => exact iff_of_true .nil (obeys_nil table before previous)
  | cons lexeme lexemes ih =>
    rw [obeys_cons_iff]
    constructor
    · intro scans
      cases scans with
      | cons first others =>
        exact ⟨first.rule law follows, (ih (first.follows law before)).mp others⟩
    · rintro ⟨hrule, others⟩
      have first := hrule.opens law follows
      exact .cons first ((ih (first.follows law before)).mpr others)

end PocketBasic.Lexeme
