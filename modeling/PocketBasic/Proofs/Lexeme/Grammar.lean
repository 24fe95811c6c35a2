import PocketBasic.Proofs.Lexeme.KeywordAt
import PocketBasic.Proofs.Lexeme.Runs

/-! The lexical grammar: `Opens table place lexeme rest` says that a reader at `place` reads
`lexeme` first where `rest` follows it, and `Scans` that it reads a whole list. Each rule states
what it asks of the rest of the text, so that a lexeme may be carried over to another text
rule by rule. The scanner reads by this grammar and by nothing else (`scanFrom_eq_iff`). -/

namespace PocketBasic.Lexeme

/-- The text that lexemes are written as. -/
def written (lexemes : List Lexeme) : List Char :=
  lexemes.flatMap Lexeme.text

@[simp] theorem written_nil : written [] = [] := rfl

@[simp] theorem written_cons (lexeme : Lexeme) (lexemes : List Lexeme) :
    written (lexeme :: lexemes) = lexeme.text ++ written lexemes := rfl

@[simp] theorem written_append (a b : List Lexeme) : written (a ++ b) = written a ++ written b := by
  simp [written]

/-- Whether a character starts a word or a mark: it does unless it ends the line, or starts a
number, a string or a comment. -/
def startsWord (c : Char) (rest : List Char) : Bool :=
  !isTerminator c && !c.isDigit && !(c == '.' && startsDigit rest) && c != '"' && c != '\''

/-- The characters of an identifier, in front of `rest`. -/
inductive Identifier : List Char → List Char → Prop where
  | plain {c : Char} {rest : List Char} (h : c.isAlpha = true → rest.head? ≠ some '$') :
      Identifier [c] rest
  | dollar {c : Char} {rest : List Char} (h : c.isAlpha = true) : Identifier [c, '$'] rest

/-- No keyword stands in front of the text. -/
structure Wordless (table : Keyword.Table) (text : List Char) : Prop where
  not_rem : ¬ remWord <+: text
  not_stands : ∀ word, table.Spells word → ¬ Stands word text

/-- The lexeme that a reader at `place` reads in front of `rest`. -/
inductive Opens (table : Keyword.Table) : Place → Lexeme → List Char → Prop where
  | crlf {place : Place} {rest : List Char} : Opens table place ⟨.newline, ['\r', '\n']⟩ rest
  | cr {place : Place} {rest : List Char} (h : rest.head? ≠ some '\n') :
      Opens table place ⟨.newline, ['\r']⟩ rest
  | lf {place : Place} {rest : List Char} : Opens table place ⟨.newline, ['\n']⟩ rest
  | remark {text rest : List Char} (hne : text ≠ []) (hline : Inline text)
      (hend : endsLine rest = true) : Opens table .afterRem ⟨.comment, text⟩ rest
  | lineNumber {text rest : List Char} (hne : text ≠ []) (hdigits : Digits text)
      (hrest : startsDigit rest = false) : Opens table .lineStart ⟨.lineNumber, text⟩ rest
  | number {whole fraction exponent rest : List Char} (h : Numeral whole fraction exponent rest)
      (hwhole : whole ≠ []) : Opens table .inLine ⟨.number, whole ++ fraction ++ exponent⟩ rest
  | fractional {place : Place} {digits exponent rest : List Char} (hplace : place ≠ .afterRem)
      (h : Numeral [] ('.' :: digits) exponent rest) (hdigits : digits ≠ []) :
      Opens table place ⟨.number, '.' :: digits ++ exponent⟩ rest
  | string {place : Place} {text rest : List Char} (hplace : place ≠ .afterRem)
      (h : Quoted text rest) : Opens table place ⟨.string, '"' :: text⟩ rest
  | comment {place : Place} {text rest : List Char} (hplace : place ≠ .afterRem)
      (hline : Inline text) (hend : endsLine rest = true) :
      Opens table place ⟨.comment, '\'' :: text⟩ rest
  | rem {place : Place} {rest : List Char} (hplace : place ≠ .afterRem) :
      Opens table place ⟨.keyword, remWord⟩ rest
  | keyword {place : Place} {text rest : List Char} (hplace : place ≠ .afterRem)
      (hspells : table.Spells text) (hrem : ¬ remWord <+: text ++ rest)
      (hstands : Stands text (text ++ rest))
      (hlongest : ∀ word, table.Spells word → Stands word (text ++ rest) →
        word.length ≤ text.length) : Opens table place ⟨.keyword, text⟩ rest
  | pair {place : Place} {c d : Char} {rest : List Char} {symbol : Symbol}
      (hplace : place ≠ .afterRem) (h : Symbol.ofPair? c d = some symbol) :
      Opens table place ⟨.symbol symbol, [c, d]⟩ rest
  | mark {place : Place} {c : Char} {rest : List Char} {symbol : Symbol}
      (hplace : place ≠ .afterRem) (h : Symbol.ofChar? c = some symbol)
      (hpair : rest.head?.bind (Symbol.ofPair? c) = none) :
      Opens table place ⟨.symbol symbol, [c]⟩ rest
  | identifier {place : Place} {c : Char} {tail rest : List Char} (hplace : place ≠ .afterRem)
      (hc : startsWord c (tail ++ rest) = true) (hmark : Symbol.ofChar? c = none)
      (h : Identifier (c :: tail) rest) (hword : Wordless table (c :: tail ++ rest)) :
      Opens table place ⟨.identifier, c :: tail⟩ rest

/-- The lexemes that a reader at `place` reads, up to the end of the text. -/
inductive Scans (table : Keyword.Table) : Place → List Lexeme → Prop where
  | nil {place : Place} : Scans table place []
  | cons {place : Place} {lexeme : Lexeme} {lexemes : List Lexeme}
      (first : Opens table place lexeme (written lexemes))
      (others : Scans table lexeme.placeAfter lexemes) : Scans table place (lexeme :: lexemes)

variable {table : Keyword.Table} {place : Place} {lexeme : Lexeme} {rest : List Char}

/-- Each lexeme of a list that is read is read in front of those after it. -/
theorem Scans.exists_cons {before lexemes : List Lexeme}
    (scans : Scans table place (before ++ lexeme :: lexemes)) :
    ∃ place', Opens table place' lexeme (written lexemes) ∧
      Scans table lexeme.placeAfter lexemes := by
  induction before generalizing place with
  | nil =>
    cases scans with
    | cons first others => exact ⟨place, first, others⟩
  | cons other before ih =>
    cases scans with
    | cons first others => exact ih others

theorem isTerminator_iff {c : Char} : isTerminator c = true ↔ c = '\r' ∨ c = '\n' := by
  simp [isTerminator]

/-! ### The scanner reads by the grammar -/

private theorem opens_newline (table : Keyword.Table) (place : Place) {c : Char}
    (hc : isTerminator c = true) (rest : List Char) :
    let further := if c == '\r' && rest.head? == some '\n' then 1 else 0
    Opens table place ⟨.newline, c :: rest.take further⟩ (rest.drop further) := by
  rcases isTerminator_iff.mp hc with rfl | rfl
  · by_cases h : rest.head? = some '\n'
    · cases rest with
      | nil => simp at h
      | cons d rest =>
        cases Option.some.inj h
        simpa using Opens.crlf
    · simpa [h] using Opens.cr h
  · simpa using Opens.lf

private theorem opens_digit (table : Keyword.Table) {place : Place} (hplace : place ≠ .afterRem)
    {c : Char} (hc : c.isDigit = true) (rest : List Char) :
    let found : Token.Kind × Nat :=
      if place = .lineStart then (.lineNumber, digitRun rest) else (.number, numberRun rest)
    Opens table place ⟨found.1, c :: rest.take found.2⟩ (rest.drop found.2) := by
  cases place with
  | afterRem => exact absurd rfl hplace
  | lineStart =>
    obtain ⟨digits, after, rfl, hrun, hdigits, hstop⟩ := exists_digitRun rest
    simp only [if_true, hrun, List.take_left, List.drop_left]
    refine .lineNumber (by simp) (fun d hd => ?_) hstop
    rcases List.mem_cons.mp hd with rfl | hd
    exacts [hc, hdigits d hd]
  | inLine =>
    obtain ⟨whole, fraction, exponent, after, rfl, hrun, h⟩ := exists_numberRun rest
    simp only [if_neg (show Place.inLine ≠ .lineStart by decide), hrun, List.take_left,
      List.drop_left]
    have hwhole : Digits (c :: whole) := fun d hd => by
      rcases List.mem_cons.mp hd with rfl | hd
      exacts [hc, h.isWhole d hd]
    exact .number { h with isWhole := hwhole } (by simp)

private theorem opens_point (table : Keyword.Table) {place : Place} (hplace : place ≠ .afterRem)
    {rest : List Char} (hrest : startsDigit rest = true) :
    Opens table place ⟨.number, '.' :: rest.take (fractionalRun rest)⟩
      (rest.drop (fractionalRun rest)) := by
  obtain ⟨digits, exponent, after, rfl, hrun, h⟩ := exists_fractionalRun rest
  rw [hrun, List.take_left, List.drop_left]
  refine .fractional hplace h ?_
  rintro rfl
  rw [List.nil_append, h.startsDigit_exponent] at hrest
  contradiction

private theorem opens_comment (table : Keyword.Table) {place : Place} {c : Char}
    (hc : isTerminator c = false) (h : place = .afterRem ∨ place ≠ .afterRem ∧ c = '\'')
    (rest : List Char) :
    Opens table place ⟨.comment, c :: rest.take (lineRun rest)⟩ (rest.drop (lineRun rest)) := by
  obtain ⟨line, after, rfl, hrun, hline, hstop⟩ := exists_lineRun rest
  rw [hrun, List.take_left, List.drop_left]
  rcases h with rfl | ⟨hplace, rfl⟩
  · refine .remark (by simp) (fun d hd => ?_) hstop
    rcases List.mem_cons.mp hd with rfl | hd
    exacts [hc, hline d hd]
  · exact .comment hplace hline hstop

private theorem opens_string (table : Keyword.Table) {place : Place} (hplace : place ≠ .afterRem)
    (rest : List Char) :
    Opens table place ⟨.string, '"' :: rest.take (stringRun rest)⟩
      (rest.drop (stringRun rest)) := by
  obtain ⟨string, after, rfl, hrun, h⟩ := exists_stringRun rest
  rw [hrun, List.take_left, List.drop_left]
  exact .string hplace h

private theorem opens_keyword {table : Keyword.Table} {place : Place} (hplace : place ≠ .afterRem)
    {c : Char} {rest : List Char} (hrem : ¬ remWord <+: c :: rest) {spelling : Keyword.Spelling}
    (h : keywordAt? table (c :: rest) = some spelling) (hne : spelling.text ≠ []) :
    Opens table place ⟨.keyword, c :: rest.take (spelling.text.length - 1)⟩
      (rest.drop (spelling.text.length - 1)) := by
  obtain ⟨hspells, hstands, hlongest⟩ := keywordAt?_eq_some h
  obtain ⟨after, heq⟩ := hstands.isPrefix
  obtain ⟨d, others, htext⟩ := List.exists_cons_of_ne_nil hne
  rw [htext] at hspells hstands hlongest heq ⊢
  rw [List.cons_append] at heq
  obtain ⟨rfl, rfl⟩ := List.cons.inj heq
  rw [List.length_cons, Nat.add_sub_cancel, List.take_left, List.drop_left]
  exact .keyword hplace hspells hrem hstands hlongest

private theorem opens_markOrName {table : Keyword.Table} {place : Place}
    (hplace : place ≠ .afterRem) {c : Char} {rest : List Char} (hc : startsWord c rest = true)
    (hword : Wordless table (c :: rest)) :
    Opens table place ⟨(markOrName c rest).1, c :: rest.take (markOrName c rest).2⟩
      (rest.drop (markOrName c rest).2) := by
  cases hpair : rest.head?.bind (Symbol.ofPair? c) with
  | some symbol =>
    simp only [markOrName, hpair]
    cases rest with
    | nil => simp at hpair
    | cons d rest => exact .pair hplace hpair
  | none =>
    cases hmark : Symbol.ofChar? c with
    | some symbol =>
      simp only [markOrName, hpair, hmark]
      exact .mark hplace hmark hpair
    | none =>
      simp only [markOrName, hpair, hmark]
      by_cases hd : c.isAlpha = true ∧ rest.head? = some '$'
      · cases rest with
        | nil => simp at hd
        | cons d rest =>
          obtain ⟨halpha, hhead⟩ := hd
          cases Option.some.inj hhead
          simp only [halpha, List.head?_cons, beq_self_eq_true, Bool.and_self, if_true,
            List.take_succ_cons, List.take_zero, List.drop_succ_cons, List.drop_zero]
          exact .identifier hplace hc hmark (.dollar halpha) hword
      · rw [if_neg (by simpa using hd)]
        simp only [List.take_zero, List.drop_zero]
        exact .identifier hplace hc hmark (.plain fun halpha hhead => hd ⟨halpha, hhead⟩) hword

/-- What the scanner reads first is what the grammar asks for. -/
theorem opens_head (law : table.Lawful) (place : Place) (c : Char) (rest : List Char) :
    Opens table place ⟨(head table place c rest).1, c :: rest.take (head table place c rest).2⟩
      (rest.drop (head table place c rest).2) := by
  unfold head
  split
  next hc => exact opens_newline table place hc rest
  next hc =>
  have hline : isTerminator c = false := by simpa using hc
  split
  next hplace => exact opens_comment table hline (.inl hplace) rest
  next hplace =>
  split
  next hdigit => exact opens_digit table hplace hdigit rest
  next hdigit =>
  split
  next hpoint =>
    simp only [Bool.and_eq_true, beq_iff_eq] at hpoint
    obtain ⟨rfl, hpoint⟩ := hpoint
    exact opens_point table hplace hpoint
  next hpoint =>
  split
  next hquote =>
    subst hquote
    exact opens_string table hplace rest
  next hquote =>
  split
  next hmark => exact opens_comment table hline (.inr ⟨hplace, hmark⟩) rest
  next hmark =>
  split
  next hrem =>
    obtain ⟨after, heq⟩ := startsRem_iff.mp hrem
    obtain ⟨rfl, rfl⟩ := List.cons.inj heq
    exact .rem hplace
  next hrem =>
  have hnot : ¬ remWord <+: c :: rest := fun h => hrem (startsRem_iff.mpr h)
  have hc : startsWord c rest = true := by
    simp_all [startsWord, startsDigit, Decidable.not_or_of_imp]
  split
  next spelling h =>
    obtain ⟨d, others, hcons, _⟩ := (keywordAt?_eq_some h).1.exists_cons law
    exact opens_keyword hplace hnot h (by simp [hcons])
  next h =>
    exact opens_markOrName hplace hc ⟨hnot, keywordAt?_eq_none.mp h⟩

/-! ### The grammar fixes what the scanner reads -/

theorem startsWord_of_isUpper {c : Char} (h : c.isUpper = true) (rest : List Char) :
    startsWord c rest = true := by
  simp [startsWord, isTerminator, isDigit_of_isUpper h, ne_of_isUpper h (d := '\r') rfl,
    ne_of_isUpper h (d := '\n') rfl, ne_of_isUpper h (d := '.') rfl,
    ne_of_isUpper h (d := '"') rfl, ne_of_isUpper h (d := '\'') rfl]

/-- Where a word starts, the scanner looks for a keyword. -/
private theorem head_of_startsWord (hplace : place ≠ .afterRem) {c : Char}
    (hc : startsWord c rest = true) :
    head table place c rest =
      if startsRem (c :: rest) then (.keyword, 2)
      else match keywordAt? table (c :: rest) with
        | some spelling => (.keyword, spelling.text.length - 1)
        | none => markOrName c rest := by
  simp only [startsWord, Bool.and_eq_true, Bool.not_eq_true', bne_iff_ne, startsDigit] at hc
  obtain ⟨⟨⟨⟨hline, hdigit⟩, hpoint⟩, hquote⟩, hmark⟩ := hc
  cases hkeyword : keywordAt? table (c :: rest) with
  | none => simp [head, hline, hplace, hdigit, hpoint, hquote, hmark, hkeyword]
  | some spelling => simp [head, hline, hplace, hdigit, hpoint, hquote, hmark, hkeyword]

private theorem head_of_digit {c : Char} (hc : c.isDigit = true) (hplace : place ≠ .afterRem) :
    head table place c rest =
      if place = .lineStart then (.lineNumber, digitRun rest) else (.number, numberRun rest) := by
  have hline : isTerminator c = false := by
    rw [Bool.eq_false_iff]
    intro hline
    rcases isTerminator_iff.mp hline with rfl | rfl <;> simp at hc
  simp only [head, hline, hplace, hc, if_true, if_false, Bool.false_eq_true]

theorem exists_ofChar?_of_ofPair? {c d : Char} {symbol : Symbol}
    (h : Symbol.ofPair? c d = some symbol) : ∃ first, Symbol.ofChar? c = some first := by
  unfold Symbol.ofPair? at h
  split at h
  next => exact ⟨.less, rfl⟩
  next => exact ⟨.less, rfl⟩
  next => exact ⟨.greater, rfl⟩
  next => contradiction

/-- No word starts with the character of a symbol. -/
private theorem of_ofChar? {c : Char} {symbol : Symbol} (h : Symbol.ofChar? c = some symbol) :
    startsWord c rest = true ∧ c.isUpper = false := by
  unfold Symbol.ofChar? at h
  split at h <;> first | exact ⟨by simp [startsWord, isTerminator], by decide⟩ | contradiction

theorem wordless_of_ofChar? (law : table.Lawful) {c : Char} {symbol : Symbol}
    (h : Symbol.ofChar? c = some symbol) (rest : List Char) : Wordless table (c :: rest) where
  not_rem := by
    rintro ⟨after, heq⟩
    cases heq
    cases h
  not_stands word hword hstands := by
    obtain ⟨d, others, rfl, hd, -⟩ := hword.exists_cons law
    obtain ⟨after, heq⟩ := hstands.isPrefix
    cases heq
    have hcase : startsWord c [] = true ∧ c.isUpper = false := of_ofChar? h
    rw [hcase.2] at hd
    contradiction

private theorem head_of_mark (law : table.Lawful) (hplace : place ≠ .afterRem) {c : Char}
    {symbol : Symbol} (h : Symbol.ofChar? c = some symbol) :
    head table place c rest = markOrName c rest := by
  have hword := wordless_of_ofChar? law h rest
  rw [head_of_startsWord hplace (of_ofChar? h).1,
    if_neg fun h => hword.not_rem (startsRem_iff.mp h), keywordAt?_eq_none.mpr hword.not_stands]

private theorem markOrName_of_identifier {c : Char} {tail : List Char}
    (hmark : Symbol.ofChar? c = none) (h : Identifier (c :: tail) rest) :
    markOrName c (tail ++ rest) = (.identifier, tail.length) := by
  have hpair (d : Char) : Symbol.ofPair? c d = none := by
    unfold Symbol.ofPair?
    split <;> simp_all [Symbol.ofChar?]
  have hbind : (tail ++ rest).head?.bind (Symbol.ofPair? c) = none := by
    cases (tail ++ rest).head? with
    | none => rfl
    | some d => exact hpair d
  simp only [markOrName, hbind, hmark]
  cases h with
  | plain h =>
    rw [List.nil_append, if_neg]
    · rfl
    · simpa using h
  | dollar h => simp [h]

/-- What the grammar asks for is what the scanner reads first. -/
theorem head_of_opens (law : table.Lawful) (h : Opens table place lexeme rest) :
    ∃ c tail, lexeme.text = c :: tail ∧
      head table place c (tail ++ rest) = (lexeme.kind, tail.length) := by
  cases h with
  | crlf => exact ⟨_, _, rfl, by simp [head, isTerminator]⟩
  | cr h => exact ⟨_, _, rfl, by simp [head, isTerminator, h]⟩
  | lf => exact ⟨_, _, rfl, by simp [head, isTerminator]⟩
  | remark hne hline hend =>
    obtain ⟨c, tail, rfl⟩ := List.exists_cons_of_ne_nil hne
    obtain ⟨hc, htail⟩ := List.forall_mem_cons.mp hline
    exact ⟨c, tail, rfl, by simp [head, hc, lineRun_append htail hend]⟩
  | lineNumber hne hdigits hrest =>
    obtain ⟨c, tail, rfl⟩ := List.exists_cons_of_ne_nil hne
    obtain ⟨hc, htail⟩ := List.forall_mem_cons.mp hdigits
    refine ⟨c, tail, rfl, ?_⟩
    rw [head_of_digit hc (by decide), if_pos rfl, digitRun_append htail hrest]
  | @number whole fraction exponent _ h hwhole =>
    obtain ⟨c, whole, rfl⟩ := List.exists_cons_of_ne_nil hwhole
    obtain ⟨hc, hdigits⟩ := List.forall_mem_cons.mp h.isWhole
    refine ⟨c, whole ++ fraction ++ exponent, by simp, ?_⟩
    rw [head_of_digit hc (by decide), if_neg (by decide),
      Numeral.numberRun_append { h with isWhole := hdigits }]
  | @fractional _ digits exponent _ hplace h hdigits =>
    refine ⟨'.', digits ++ exponent, rfl, ?_⟩
    have hstart : (digits ++ exponent ++ rest).head?.any Char.isDigit = true := by
      have hall : Digits digits := by
        rcases h.isFraction with hnil | ⟨_, heq, hall⟩
        · simp at hnil
        · exact (List.cons.inj heq).2 ▸ hall
      obtain ⟨d, digits, rfl⟩ := List.exists_cons_of_ne_nil hdigits
      simpa using hall d List.mem_cons_self
    rw [head, if_neg (by decide), if_neg hplace, if_neg (by decide), hstart,
      fractionalRun_append h]
    rfl
  | @string _ text _ hplace h =>
    refine ⟨'"', text, rfl, ?_⟩
    rw [head, if_neg (by decide), if_neg hplace, if_neg (by decide), if_neg (by simp),
      if_pos rfl, h.stringRun_append]
  | @comment _ text _ hplace hline hend =>
    refine ⟨'\'', text, rfl, ?_⟩
    rw [head, if_neg (by decide), if_neg hplace, if_neg (by decide), if_neg (by simp),
      if_neg (by decide), if_pos rfl, lineRun_append hline hend]
  | rem hplace =>
    refine ⟨'R', ['E', 'M'], rfl, ?_⟩
    rw [head_of_startsWord hplace (startsWord_of_isUpper (by decide) _), if_pos]
    · rfl
    · exact startsRem_iff.mpr (List.prefix_append remWord rest)
  | @keyword _ text _ hplace hspells hrem hstands hlongest =>
    obtain ⟨c, others, rfl, hc, -⟩ := hspells.exists_cons law
    obtain ⟨spelling, hfound, htext⟩ := exists_keywordAt? hspells hstands hlongest
    rw [List.cons_append] at hfound hrem
    refine ⟨c, others, rfl, ?_⟩
    rw [head_of_startsWord hplace (startsWord_of_isUpper hc _),
      if_neg fun h => hrem (startsRem_iff.mp h), hfound]
    simp [htext]
  | @pair _ c d _ symbol hplace h =>
    obtain ⟨first, hfirst⟩ := exists_ofChar?_of_ofPair? h
    refine ⟨c, [d], rfl, ?_⟩
    rw [head_of_mark law hplace hfirst, markOrName]
    simp [h]
  | @mark _ c _ symbol hplace h hpair =>
    refine ⟨c, [], rfl, ?_⟩
    rw [head_of_mark law hplace h, markOrName, List.nil_append, hpair]
    simp only [h, List.length_nil]
  | @identifier _ c tail _ hplace hc hmark h hword =>
    refine ⟨c, tail, rfl, ?_⟩
    rw [List.cons_append] at hword
    rw [head_of_startsWord hplace hc, if_neg fun h => hword.not_rem (startsRem_iff.mp h),
      keywordAt?_eq_none.mpr hword.not_stands]
    exact markOrName_of_identifier hmark h

theorem Opens.text_ne_nil (law : table.Lawful) (first : Opens table place lexeme rest) :
    lexeme.text ≠ [] := by
  obtain ⟨c, tail, heq, -⟩ := head_of_opens law first
  simp [heq]

/-- Reading a text gives the lexemes that the grammar allows, and there is one list of those. -/
theorem scanFrom_eq_iff (law : table.Lawful) {text : List Char} {lexemes : List Lexeme} :
    scanFrom table place text = lexemes ↔ Scans table place lexemes ∧ written lexemes = text := by
  constructor
  · rintro rfl
    refine ⟨?_, flatMap_text_scanFrom table place text⟩
    fun_induction scanFrom table place text with
    | case1 => exact .nil
    | case2 place c rest kind further found lexeme ih =>
      refine .cons ?_ ih
      rw [written, flatMap_text_scanFrom]
      have opens := opens_head law place c rest
      rwa [found] at opens
  · rintro ⟨scans, rfl⟩
    induction scans with
    | nil => exact scanFrom_nil table _
    | cons first others ih =>
      obtain ⟨c, tail, htext, hhead⟩ := head_of_opens law first
      rw [written_cons, htext, List.cons_append, scanFrom_cons, hhead, List.take_left,
        List.drop_left]
      rw [← htext, ih]

end PocketBasic.Lexeme
