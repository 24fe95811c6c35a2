import PocketBasic.Proofs.Folding.Kept
import PocketBasic.Proofs.Lexeme.Grammar

/-! Folding and scanning in step. A fold sees strings and comments where a scan of the folded text
finds them: at the start of every lexeme the fold stands in the mode that belongs to the place of
the reader (`Scans.in_step`). The one thing that could put them apart is a `REM` that a fold sees
across blanks or across lexemes, and in a folded text there is none. -/

namespace PocketBasic.Lexeme

open Folding

/-- The mode in which a fold stands where a reader of lexemes stands. -/
def Place.mode : Place → Mode
  | .afterRem => .comment
  | .lineStart | .inLine => .code

/-- Whether blanks are part of what the lexeme says. -/
def isVerbatim (lexeme : Lexeme) : Bool :=
  lexeme.kind == .string || lexeme.kind == .comment

/-- The lexemes hold no blanks but those of strings and comments. -/
def Folded (lexemes : List Lexeme) : Prop :=
  ∀ lexeme ∈ lexemes, lexeme.isVerbatim = false → ∀ c ∈ lexeme.text, Text.isBlank c = false

variable {table : Keyword.Table} {place : Place} {mode : Mode} {lexeme : Lexeme}
  {lexemes : List Lexeme} {text rest : List Char}

theorem kind_ne_of_isVerbatim (h : lexeme.isVerbatim = true) : lexeme.kind ≠ .keyword := by
  intro hkind
  simp [isVerbatim, hkind] at h

theorem Folded.head (h : Folded (lexeme :: lexemes)) (hcode : lexeme.isVerbatim = false) :
    ∀ c ∈ lexeme.text, Text.isBlank c = false :=
  h lexeme List.mem_cons_self hcode

theorem Folded.tail (h : Folded (lexeme :: lexemes)) : Folded lexemes :=
  fun other hmem => h other (List.mem_cons_of_mem _ hmem)

/-! ### Characters of lexemes -/

/-- Whether a character leaves a fold in the code, unless it starts a `REM`. -/
def isPlain (c : Char) : Bool :=
  !isTerminator c && c != '"' && c != '\''

theorem not_terminator_of_isPlain {c : Char} (h : isPlain c = true) : isTerminator c = false := by
  simp only [isPlain, Bool.and_eq_true, Bool.not_eq_true'] at h
  exact h.1.1

theorem isPlain_of_startsWord {c : Char} (h : startsWord c rest = true) : isPlain c = true := by
  simp only [startsWord, Bool.and_eq_true] at h
  obtain ⟨⟨⟨⟨hline, -⟩, -⟩, hquote⟩, hmark⟩ := h
  simp [isPlain, hquote, hmark, hline]

theorem isPlain_of_isSpellingChar {c : Char} (h : isSpellingChar c = true) :
    isPlain c = true ∧ Text.isBlank c = false := by
  simp only [isSpellingChar, isNameChar, Bool.or_eq_true, beq_iff_eq] at h
  rcases h with ((h | rfl) | rfl) | rfl
  · refine ⟨isPlain_of_startsWord (startsWord_of_isUpper h []), ?_⟩
    have := (le_of_isUpper h).1
    rw [Bool.eq_false_iff]
    intro hblank
    simp only [Text.isBlank, Bool.or_eq_true, beq_iff_eq] at hblank
    rcases hblank with rfl | rfl <;> simp at this
  all_goals decide

/-- Whether a character may be part of a number. -/
def isNumeralChar (c : Char) : Bool :=
  c.isDigit || c == '.' || c == 'E' || c == '+' || c == '-'

theorem isPlain_of_isNumeralChar {c : Char} (h : isNumeralChar c = true) :
    isPlain c = true ∧ Text.isBlank c = false ∧ c ≠ 'R' := by
  simp only [isNumeralChar, Bool.or_eq_true, beq_iff_eq] at h
  rcases h with (((h | rfl) | rfl) | rfl) | rfl
  · have hne {d : Char} (hd : d.isDigit = false) : c ≠ d := by
      rintro rfl
      rw [h] at hd
      contradiction
    simp [isPlain, isTerminator, Text.isBlank, hne (d := '\r') (by decide),
      hne (d := '\n') (by decide), hne (d := '"') (by decide), hne (d := '\'') (by decide),
      hne (d := ' ') (by decide), hne (d := '\t') (by decide), hne (d := 'R') (by decide)]
  all_goals decide

theorem isNumeralChar_of_digits {digits : List Char} (h : Digits digits) :
    ∀ c ∈ digits, isNumeralChar c = true :=
  fun c hc => by simp [isNumeralChar, h c hc]

theorem Numeral.isNumeralChar {whole fraction exponent : List Char}
    (h : Numeral whole fraction exponent rest) :
    ∀ c ∈ whole ++ fraction ++ exponent, isNumeralChar c = true := by
  intro c hc
  simp only [List.mem_append] at hc
  rcases hc with (hc | hc) | hc
  · exact isNumeralChar_of_digits h.isWhole c hc
  · rcases h.isFraction with rfl | ⟨digits, rfl, hdigits⟩
    · contradiction
    · rcases List.mem_cons.mp hc with rfl | hc
      exacts [rfl, isNumeralChar_of_digits hdigits c hc]
  · rcases h.isExponent with rfl | ⟨sign, digits, rfl, hsign, -, hdigits⟩
    · contradiction
    · rcases List.mem_cons.mp hc with rfl | hc
      · rfl
      · rcases List.mem_append.mp hc with hc | hc
        · rcases hsign with rfl | rfl | rfl
          · contradiction
          all_goals rw [List.mem_singleton.mp hc]; rfl
        · exact isNumeralChar_of_digits hdigits c hc

/-- What a symbol is written with. -/
theorem isPlain_of_ofChar? {c : Char} {symbol : Symbol} (h : Symbol.ofChar? c = some symbol) :
    isPlain c = true ∧ Text.isBlank c = false ∧ c ≠ 'R' := by
  unfold Symbol.ofChar? at h
  split at h <;> first | contradiction | decide

theorem isPlain_of_ofPair? {c d : Char} {symbol : Symbol}
    (h : Symbol.ofPair? c d = some symbol) :
    ∀ e ∈ [c, d], isPlain e = true ∧ Text.isBlank e = false ∧ e ≠ 'R' := by
  unfold Symbol.ofPair? at h
  split at h <;> first | contradiction | decide

/-- A number or a symbol holds no blanks and no `R`, and opens neither a string nor a comment. -/
theorem Opens.isPlain_of_mem (first : Opens table place lexeme rest)
    (hcode : lexeme.isVerbatim = false) (hline : lexeme.kind ≠ .newline)
    (hkeyword : lexeme.kind ≠ .keyword) (hname : lexeme.kind ≠ .identifier) :
    ∀ c ∈ lexeme.text, isPlain c = true ∧ Text.isBlank c = false ∧ c ≠ 'R' := by
  intro c hc
  cases first with
  | crlf | cr | lf | rem | keyword | identifier | remark | string | comment => contradiction
  | lineNumber _ hdigits => exact isPlain_of_isNumeralChar (isNumeralChar_of_digits hdigits c hc)
  | number h | fractional _ h => exact isPlain_of_isNumeralChar (h.isNumeralChar c hc)
  | pair _ h => exact isPlain_of_ofPair? h c hc
  | mark _ h =>
    rw [List.mem_singleton.mp hc]
    exact isPlain_of_ofChar? h

/-! ### Where a reader stands -/

theorem isRem_iff : lexeme.isRem = true ↔ lexeme.kind = .keyword ∧ lexeme.text = remWord := by
  simp [isRem]

theorem eq_of_isRem (h : lexeme.isRem = true) : lexeme = ⟨.keyword, remWord⟩ := by
  obtain ⟨hkind, htext⟩ := isRem_iff.mp h
  rw [← hkind, ← htext]

theorem isRem_of_not_isPrefix {text : List Char} (h : ¬ remWord <+: text ++ rest) :
    (⟨.keyword, text⟩ : Lexeme).isRem = false := by
  rw [Bool.eq_false_iff]
  intro hrem
  exact h ((isRem_iff.mp hrem).2 ▸ List.prefix_append ..)

theorem placeAfter_eq_afterRem (h : lexeme.isRem = true) : lexeme.placeAfter = .afterRem := by
  rw [eq_of_isRem h]
  rfl

theorem placeAfter_eq_inLine (hline : lexeme.kind ≠ .newline) (hrem : lexeme.isRem = false) :
    lexeme.placeAfter = .inLine := by
  rw [placeAfter, if_neg hline, if_neg (by simp [hrem])]

theorem placeAfter_ne (hrem : lexeme.isRem = false) : lexeme.placeAfter ≠ .afterRem := by
  rw [placeAfter]
  split
  · decide
  · rw [if_neg (by simp [hrem])]
    decide

/-- After a `REM` there are comments and line ends only. -/
theorem Opens.place_ne (first : Opens table place lexeme rest) (hline : lexeme.kind ≠ .newline)
    (hcomment : lexeme.kind ≠ .comment) : place ≠ .afterRem := by
  cases first with
  | crlf | cr | lf => exact absurd rfl hline
  | remark | comment => exact absurd rfl hcomment
  | lineNumber | number => decide
  | fractional hplace | string hplace | rem hplace | keyword hplace | pair hplace | mark hplace
    | identifier hplace => exact hplace

/-! ### The fold inside of a lexeme -/

/-- A lexeme outside of strings, comments and line ends, which the fold goes through as code. -/
structure InCode (text rest : List Char) : Prop where
  isPlain : ∀ c ∈ text, isPlain c = true
  /-- No `REM` starts at a letter of the lexeme. -/
  not_rem : ∀ {before after}, text = before ++ 'R' :: after → ¬ ['E', 'M'] <+: after ++ rest

theorem InCode.of_ne {text : List Char} (h : ∀ c ∈ text, Lexeme.isPlain c = true ∧ c ≠ 'R')
    (rest : List Char) : InCode text rest where
  isPlain c hc := (h c hc).1
  not_rem heq := absurd rfl (h 'R' (by simp [heq])).2

theorem Wordless.inCode {c : Char} {tail : List Char} (hc : startsWord c (tail ++ rest) = true)
    (h : Identifier (c :: tail) rest) (hword : Wordless table (c :: tail ++ rest)) :
    InCode (c :: tail) rest := by
  have plain := isPlain_of_startsWord hc
  have first {after : List Char} (heq : c :: tail = 'R' :: after) :
      ¬ ['E', 'M'] <+: after ++ rest := by
    rintro ⟨more, hmore⟩
    refine hword.not_rem ⟨more, ?_⟩
    rw [heq, List.cons_append, ← hmore]
    rfl
  cases h with
  | plain =>
    refine ⟨by simpa using plain, fun {before after} heq => ?_⟩
    cases before with
    | nil => exact first heq
    | cons d before => simp at heq
  | dollar =>
    refine ⟨?_, fun {before after} heq => ?_⟩
    · simp only [List.mem_cons, List.not_mem_nil, or_false]
      rintro d (rfl | rfl)
      exacts [plain, by decide]
    · cases before with
      | nil => exact first heq
      | cons d before =>
        cases before with
        | nil => simp at heq
        | cons e before => simp at heq

/-- Every lexeme that is not verbatim, a `REM` or a line end, is gone through as code. -/
theorem Opens.inCode (law : table.Lawful) (first : Opens table place lexeme rest)
    (hcode : lexeme.isVerbatim = false) (hline : lexeme.kind ≠ .newline)
    (hrem : lexeme.isRem = false) : place ≠ .afterRem ∧ InCode lexeme.text rest := by
  have hcomment : lexeme.kind ≠ .comment := fun h => by simp [isVerbatim, h] at hcode
  refine ⟨first.place_ne hline hcomment, ?_⟩
  have original := first
  cases first with
  | crlf | cr | lf => exact absurd rfl hline
  | remark | string | comment | rem => contradiction
  | lineNumber | number | fractional | pair | mark =>
    refine .of_ne (fun c hc => ?_) rest
    obtain ⟨plain, -, hne⟩ := original.isPlain_of_mem hcode hline nofun nofun c hc
    exact ⟨plain, hne⟩
  | @keyword _ text _ _ hspells hnot hstands =>
    refine ⟨fun c hc => ?_, fun {before after} heq hinside => ?_⟩
    · exact (isPlain_of_isSpellingChar (hspells.isSpellingChar law c hc)).1
    · change text = before ++ 'R' :: after at heq
      have hpre : remWord <+: 'R' :: after ++ rest := by
        obtain ⟨more, hmore⟩ := hinside
        exact ⟨more, by rw [List.cons_append, ← hmore]; rfl⟩
      cases before with
      | nil =>
        rw [heq] at hnot
        exact hnot hpre
      | cons c before =>
        refine hstands.uninterrupted (c :: before).length (by simp) (by simp [heq]) ?_
        rwa [heq, List.append_assoc, List.drop_left]
  | identifier _ hc _ h hword => exact hword.inCode hc h

theorem next_of_isPlain {c : Char} (h : isPlain c = true) (rest : List Char) :
    Mode.code.next c rest = if c = 'R' ∧ completesRem rest = true then .rem else .code := by
  simp only [isPlain, Bool.and_eq_true, Bool.not_eq_true', bne_iff_ne] at h
  obtain ⟨⟨hline, hquote⟩, hmark⟩ := h
  simp only [Mode.next, hline, hquote, hmark, if_false, Bool.false_eq_true]

/-- A fold stays in the code as long as it completes no `REM` there. -/
theorem through_code (plain : ∀ c ∈ text, isPlain c = true)
    (hrem : ∀ before after, text = before ++ 'R' :: after →
      Mode.code.through before ('R' :: after ++ rest) = .code →
      completesRem (after ++ rest) = false) : Mode.code.through text rest = .code := by
  induction text with
  | nil => rfl
  | cons c text ih =>
    have next : Mode.code.next c (text ++ rest) = .code := by
      rw [next_of_isPlain (plain c List.mem_cons_self), if_neg]
      rintro ⟨rfl, hcompletes⟩
      rw [hrem [] text rfl rfl] at hcompletes
      contradiction
    rw [Mode.through_cons, next]
    refine ih (fun d hd => plain d (List.mem_cons_of_mem _ hd)) fun before after heq hmode => ?_
    refine hrem (c :: before) after (by rw [heq]; rfl) ?_
    have hrest : before ++ ('R' :: after ++ rest) = text ++ rest := by
      rw [heq, List.append_assoc]
    rw [Mode.through_cons, hrest, next]
    exact hmode

theorem through_quoted {text : List Char} (h : Inline text) (hq : '"' ∉ text)
    (rest : List Char) : Mode.quoted.through text rest = .quoted := by
  induction text with
  | nil => rfl
  | cons c text ih =>
    have hc : isTerminator c = false := h c List.mem_cons_self
    have hne : c ≠ '"' := fun hc => hq (hc ▸ List.mem_cons_self)
    rw [Mode.through_cons, Mode.next, hc, if_neg (by simp)]
    simp only [hne, if_false]
    exact ih (fun d hd => h d (List.mem_cons_of_mem _ hd)) fun hd =>
      hq (List.mem_cons_of_mem _ hd)

/-- A fold keeps the characters between quotes. -/
theorem kept_quoted {text : List Char} (h : Inline text) (hq : '"' ∉ text)
    (rest : List Char) : kept .quoted text rest = text := by
  induction text with
  | nil => rfl
  | cons c text ih =>
    have hfirst : Inline [c] := by simpa [Inline] using h c List.mem_cons_self
    have next := through_quoted hfirst (fun hc => hq (by simp_all)) (text ++ rest)
    rw [Mode.through_cons, Mode.through_nil, List.nil_append] at next
    rw [kept_cons_of_keeps (.inl rfl), next,
      ih (fun d hd => h d (List.mem_cons_of_mem _ hd)) fun hd => hq (List.mem_cons_of_mem _ hd)]

theorem Quoted.in_step {text : List Char} (h : Quoted text rest) (rest' : List Char) :
    kept .quoted text rest' = text ∧
      (Mode.quoted.through text rest' = .code ∨ endsLine rest = true) := by
  cases h with
  | @closed text _ h hq =>
    rw [kept_append, kept_quoted h hq, Mode.through_append, through_quoted h hq]
    exact ⟨rfl, .inl rfl⟩
  | opened h hq hend => exact ⟨kept_quoted h hq rest', .inr hend⟩

theorem kept_of_not_blank {text : List Char} (h : ∀ c ∈ text, Text.isBlank c = false)
    (mode : Mode) (rest : List Char) : kept mode text rest = text := by
  induction text generalizing mode with
  | nil => rfl
  | cons c text ih =>
    rw [kept_cons_of_keeps (.inr (h c List.mem_cons_self)),
      ih fun d hd => h d (List.mem_cons_of_mem _ hd)]

theorem next_remWord (rest : List Char) : Mode.code.next 'R' (['E', 'M'] ++ rest) = .rem := by
  have hcompletes : completesRem ('E' :: 'M' :: rest) = true := by
    rw [completesRem_eq, Text.content_cons_of_not_blank (by decide),
      Text.content_cons_of_not_blank (by decide)]
    rfl
  simp [Mode.next, isTerminator, hcompletes]

theorem through_remWord (rest : List Char) : Mode.code.through remWord rest = .comment := by
  rw [remWord, Mode.through_cons, next_remWord]
  simp [Mode.through_cons, Mode.next, isTerminator]

/-! ### One lexeme -/

/-- A reader at the place and a fold in the mode agree on what is to come. At the end of a line they
need not, since a terminator brings them together again. -/
def Place.Agrees (place : Place) (mode : Mode) (text : List Char) : Prop :=
  mode = place.mode ∨ endsLine text = true

theorem Place.Agrees.mode_eq (h : place.Agrees mode text) (hline : endsLine text = false) :
    mode = place.mode := by
  rcases h with h | h
  · exact h
  · rw [hline] at h
    contradiction

theorem endsLine_cons_append {c : Char} {tail : List Char} (hc : isTerminator c = false) :
    endsLine (c :: tail ++ rest) = false := by
  simp [endsLine, hc]

theorem Place.mode_of_ne (h : place ≠ .afterRem) : place.mode = .code := by
  cases place with
  | afterRem => exact absurd rfl h
  | lineStart | inLine => rfl

/-- A fold keeps a string or a comment, and leaves it as a reader does or at the end of the line. -/
private theorem Opens.in_step_of_verbatim (first : Opens table place lexeme rest)
    (agrees : place.Agrees mode (lexeme.text ++ rest)) (hverbatim : lexeme.isVerbatim = true)
    (rest' : List Char) : kept mode lexeme.text rest' = lexeme.text ∧
      lexeme.placeAfter.Agrees (mode.through lexeme.text rest') rest := by
  cases first with
  | @remark text _ hne hline hend =>
    obtain ⟨c, tail, rfl⟩ := List.exists_cons_of_ne_nil hne
    rw [agrees.mode_eq (endsLine_cons_append (hline c List.mem_cons_self))]
    exact ⟨(kept_comment hline rest').1, .inr hend⟩
  | @string _ text _ hplace h =>
    rw [agrees.mode_eq (endsLine_cons_append (by decide)), Place.mode_of_ne hplace]
    obtain ⟨hkept, hthrough⟩ := h.in_step rest'
    rw [kept_cons_of_keeps (.inr (by decide)), Mode.through_cons]
    exact ⟨congrArg _ hkept, hthrough⟩
  | @comment _ text _ hplace hline hend =>
    rw [agrees.mode_eq (endsLine_cons_append (by decide)), Place.mode_of_ne hplace]
    rw [kept_cons_of_keeps (.inr (by decide))]
    exact ⟨congrArg _ (kept_comment hline rest').1, .inr hend⟩
  | crlf | cr | lf | lineNumber | number | fractional | rem | keyword | pair | mark
    | identifier => contradiction

/-- A terminator leaves a fold and a reader at the start of a line. -/
private theorem Opens.through_newline (first : Opens table place lexeme rest)
    (hline : lexeme.kind = .newline) (rest' : List Char) :
    mode.through lexeme.text rest' = lexeme.placeAfter.mode := by
  cases first with
  | crlf | cr | lf => simp [Mode.through_cons, Mode.next, isTerminator, placeAfter, Place.mode]
  | remark | lineNumber | number | fractional | string | comment | rem | keyword | pair | mark
    | identifier => contradiction

/-- A `REM` leaves a fold and a reader in a comment. -/
private theorem Opens.through_of_isRem (first : Opens table place lexeme rest)
    (agrees : place.Agrees mode (lexeme.text ++ rest)) (hrem : lexeme.isRem = true)
    (rest' : List Char) : mode.through lexeme.text rest' = lexeme.placeAfter.mode := by
  obtain ⟨hkind, htext⟩ := isRem_iff.mp hrem
  have hplace := first.place_ne (by simp [hkind]) (by simp [hkind])
  rw [htext] at agrees ⊢
  rw [agrees.mode_eq (endsLine_cons_append (by decide)), Place.mode_of_ne hplace, through_remWord,
    placeAfter_eq_afterRem hrem]
  rfl

/-- A fold goes through a lexeme as a reader does, if it completes no `REM` there that the reader
does not see. The fold may read another text after the lexeme. -/
theorem Opens.in_step (law : table.Lawful) (first : Opens table place lexeme rest)
    (agrees : place.Agrees mode (lexeme.text ++ rest)) {rest' : List Char}
    (hblank : lexeme.isVerbatim = false → ∀ c ∈ lexeme.text, Text.isBlank c = false)
    (hrem : place ≠ .afterRem → mode = .code → lexeme.isVerbatim = false →
      lexeme.isRem = false → ∀ before after, lexeme.text = before ++ 'R' :: after →
      Mode.code.through before ('R' :: after ++ rest') = .code →
      completesRem (after ++ rest') = true → ['E', 'M'] <+: after ++ rest) :
    kept mode lexeme.text rest' = lexeme.text ∧
      lexeme.placeAfter.Agrees (mode.through lexeme.text rest') rest := by
  cases hcode : lexeme.isVerbatim with
  | true => exact first.in_step_of_verbatim agrees hcode rest'
  | false =>
    refine ⟨kept_of_not_blank (hblank hcode) mode rest', .inl ?_⟩
    by_cases hline : lexeme.kind = .newline
    · exact first.through_newline hline rest'
    cases hnot : lexeme.isRem with
    | true => exact first.through_of_isRem agrees hnot rest'
    | false =>
      obtain ⟨hplace, hin⟩ := first.inCode law hcode hline hnot
      obtain ⟨c, tail, htext⟩ := List.exists_cons_of_ne_nil (first.text_ne_nil law)
      have hc := not_terminator_of_isPlain (hin.isPlain c (by simp [htext]))
      rw [htext] at agrees
      have hmode : mode = .code :=
        (agrees.mode_eq (endsLine_cons_append hc)).trans (Place.mode_of_ne hplace)
      rw [hmode, through_code hin.isPlain fun before after heq hbefore => ?_]
      · rw [placeAfter_eq_inLine hline hnot]
        rfl
      · rw [Bool.eq_false_iff]
        exact fun hcompletes =>
          hin.not_rem heq (hrem hplace hmode hcode hnot before after heq hbefore hcompletes)

/-! ### Folded texts -/

/-- In a folded text a `REM` is completed without blanks. -/
theorem prefix_of_completesRem {text : List Char} (h : kept .rem text [] = text)
    (hcompletes : completesRem text = true) : ['E', 'M'] <+: text := by
  rw [completesRem_eq, List.isPrefixOf_iff_prefix] at hcompletes
  obtain ⟨more, hmore⟩ := hcompletes
  have keeps {c : Char} {rest : List Char} (h : kept .rem (c :: rest) [] = c :: rest) :
      Text.isBlank c = false ∧ kept (Mode.rem.next c rest) rest [] = rest := by
    simpa [Mode.isVerbatim] using kept_cons_eq_self h
  cases text with
  | nil => simp at hmore
  | cons c text =>
    obtain ⟨hc, htext⟩ := keeps h
    rw [Text.content_cons_of_not_blank hc, List.cons_append] at hmore
    obtain ⟨rfl, hrest⟩ := List.cons.inj hmore
    cases text with
    | nil => simp at hrest
    | cons d text =>
      have next : Mode.rem.next 'E' (d :: text) = .rem := by simp [Mode.next, isTerminator]
      rw [next] at htext
      rw [Text.content_cons_of_not_blank (keeps htext).1, List.cons_append] at hrest
      obtain ⟨rfl, -⟩ := List.cons.inj hrest
      exact ⟨text, rfl⟩

/-- The first lexeme of a folded text holds no blanks, unless they belong to it. -/
private theorem Opens.not_blank (law : table.Lawful) (first : Opens table place lexeme rest)
    (agrees : place.Agrees mode (lexeme.text ++ rest))
    (h : kept mode (lexeme.text ++ rest) [] = lexeme.text ++ rest)
    (hcode : lexeme.isVerbatim = false) : ∀ c ∈ lexeme.text, Text.isBlank c = false := by
  have original := first
  cases first with
  | crlf | cr | lf | rem => decide
  | remark | string | comment => contradiction
  | lineNumber | number | fractional | pair | mark =>
    exact fun c hc => (original.isPlain_of_mem hcode nofun nofun nofun c hc).2.1
  | keyword _ hspells =>
    exact fun c hc => (isPlain_of_isSpellingChar (hspells.isSpellingChar law c hc)).2
  | @identifier _ c tail _ hplace hc _ hident =>
    have hline := not_terminator_of_isPlain (isPlain_of_startsWord hc)
    rw [agrees.mode_eq (endsLine_cons_append hline), Place.mode_of_ne hplace] at h
    have hfirst : Text.isBlank c = false := by
      simpa [Mode.isVerbatim] using (kept_cons_eq_self h).1
    cases hident with
    | plain => simpa using hfirst
    | dollar =>
      simp only [List.mem_cons, List.not_mem_nil, or_false]
      rintro d (rfl | rfl)
      exacts [hfirst, by decide]

/-- A scan of a folded text finds blanks in strings and comments only. -/
theorem Scans.folded (law : table.Lawful) (scans : Scans table place lexemes)
    (agrees : place.Agrees mode (written lexemes))
    (h : kept mode (written lexemes) [] = written lexemes) : Folded lexemes := by
  induction scans generalizing mode with
  | nil => exact fun _ hmem => absurd hmem List.not_mem_nil
  | @cons place lexeme lexemes first others ih =>
    have hblank := first.not_blank law agrees h
    have hstep : kept mode lexeme.text (written lexemes) = lexeme.text ∧
        lexeme.placeAfter.Agrees (mode.through lexeme.text (written lexemes)) (written lexemes) :=
      first.in_step law agrees hblank ?_
    · obtain ⟨-, hothers⟩ := kept_append_eq_self h
      rw [List.append_nil] at hothers
      intro other hmem hcode
      rcases List.mem_cons.mp hmem with rfl | hmem
      · exact hblank hcode
      · exact ih hstep.2 hothers other hmem hcode
    · rintro - rfl - - before after heq hbefore hcompletes
      rw [written_cons, heq, List.append_assoc] at h
      obtain ⟨-, hrest⟩ := kept_append_eq_self h
      rw [List.append_nil, hbefore, List.cons_append] at hrest
      obtain ⟨-, hafter⟩ := kept_cons_eq_self hrest
      have next : Mode.code.next 'R' (after ++ written lexemes) = .rem := by
        simp [Mode.next, isTerminator, hcompletes]
      rw [List.append_nil, next] at hafter
      exact prefix_of_completesRem hafter hcompletes

/-! ### Texts without blanks in the code -/

/-- Outside of remarks a folded text does not start with a blank. -/
theorem Scans.startsBlank_eq (law : table.Lawful) (scans : Scans table place lexemes)
    (folded : Folded lexemes) (hplace : place ≠ .afterRem) :
    Text.startsBlank (written lexemes) = false := by
  cases scans with
  | nil => rfl
  | @cons _ lexeme lexemes first others =>
    obtain ⟨c, tail, htext⟩ := List.exists_cons_of_ne_nil (first.text_ne_nil law)
    rw [written_cons, htext, List.cons_append]
    cases hverbatim : lexeme.isVerbatim with
    | false => exact folded.head hverbatim c (by simp [htext])
    | true =>
      cases first with
      | remark => exact absurd rfl hplace
      | string => cases htext; rfl
      | comment => cases htext; rfl
      | crlf | cr | lf | lineNumber | number | fractional | rem | keyword | pair | mark
        | identifier => contradiction

theorem startsBlank_append {a b : List Char} (ha : ∀ c ∈ a, Text.isBlank c = false)
    (hb : Text.startsBlank b = false) : Text.startsBlank (a ++ b) = false := by
  cases a with
  | nil => exact hb
  | cons c a => exact ha c List.mem_cons_self

/-- A character that a text without a blank in front has first in its content it has first. -/
theorem exists_cons_of_content {text more : List Char} {c : Char}
    (hblank : Text.startsBlank text = false) (h : Text.content text = c :: more) :
    ∃ rest, text = c :: rest ∧ Text.content rest = more := by
  cases text with
  | nil => simp at h
  | cons d rest =>
    rw [Text.content_cons_of_not_blank hblank] at h
    obtain ⟨rfl, rfl⟩ := List.cons.inj h
    exact ⟨rest, rfl, rfl⟩

/-- Across lexemes too, a `REM` is completed without blanks. -/
private theorem Scans.prefix_of_content (law : table.Lawful) (scans : Scans table place lexemes)
    (folded : Folded lexemes) (hplace : place ≠ .afterRem) {a : List Char}
    (ha : ∀ c ∈ a, Text.isBlank c = false)
    (h : ['E', 'M'] <+: Text.content (a ++ written lexemes)) :
    ['E', 'M'] <+: a ++ written lexemes := by
  obtain ⟨more, hmore⟩ := h
  have hblank := scans.startsBlank_eq law folded hplace
  obtain ⟨rest, heq, hrest⟩ :=
    exists_cons_of_content (startsBlank_append ha hblank) hmore.symm
  -- What follows the `E` starts without a blank too: it is in the same lexeme, or in the next one.
  have hstart : Text.startsBlank rest = false := by
    cases a with
    | cons c a =>
      obtain ⟨rfl, rfl⟩ := List.cons.inj heq
      exact startsBlank_append (fun d hd => ha d (List.mem_cons_of_mem _ hd)) hblank
    | nil =>
      cases scans with
      | nil => contradiction
      | @cons _ lexeme lexemes first others =>
        obtain ⟨c, tail, htext⟩ := List.exists_cons_of_ne_nil (first.text_ne_nil law)
        rw [List.nil_append, written_cons, htext, List.cons_append] at heq
        obtain ⟨rfl, rfl⟩ := List.cons.inj heq
        have hcode : lexeme.isVerbatim = false := by
          cases first with
          | remark => exact absurd rfl hplace
          | string | comment => simp at htext
          | crlf | cr | lf | lineNumber | number | fractional | rem | keyword | pair | mark
            | identifier => rfl
        have hrem : lexeme.isRem = false := by simp [isRem, htext, remWord]
        have htail : ∀ d ∈ tail, Text.isBlank d = false := fun d hd =>
          folded.head hcode d (by rw [htext]; exact List.mem_cons_of_mem _ hd)
        exact startsBlank_append htail
          (others.startsBlank_eq law folded.tail (placeAfter_ne hrem))
  obtain ⟨last, rfl, -⟩ := exists_cons_of_content hstart hrest
  exact ⟨last, heq.symm⟩

/-- What looks like a `REM` that starts inside of a lexeme is one, whatever blanks follow the
lexeme. -/
theorem Scans.prefix_of_completesRem (law : table.Lawful)
    (scans : Scans table place (lexeme :: lexemes)) (folded : Folded (lexeme :: lexemes))
    (hcode : lexeme.isVerbatim = false) (hrem : lexeme.isRem = false) {before after : List Char}
    (heq : lexeme.text = before ++ 'R' :: after)
    (hrest : Text.content rest = Text.content (written lexemes))
    (h : completesRem (after ++ rest) = true) : ['E', 'M'] <+: after ++ written lexemes := by
  cases scans with
  | cons first others =>
    have hafter : ∀ c ∈ after, Text.isBlank c = false := fun c hc =>
      folded.head hcode c (by rw [heq]; simp [hc])
    refine others.prefix_of_content law folded.tail (placeAfter_ne hrem) hafter ?_
    rw [completesRem_eq, List.isPrefixOf_iff_prefix] at h
    simpa only [Text.content_append, hrest] using h

/-- A fold of lexemes without blanks in the code goes through the first of them as a reader does,
whatever blanks follow it. -/
theorem Scans.in_step (law : table.Lawful) (scans : Scans table place (lexeme :: lexemes))
    (folded : Folded (lexeme :: lexemes)) (agrees : place.Agrees mode (written (lexeme :: lexemes)))
    (hrest : Text.content rest = Text.content (written lexemes)) :
    kept mode lexeme.text rest = lexeme.text ∧
      lexeme.placeAfter.Agrees (mode.through lexeme.text rest) (written lexemes) := by
  have hscans := scans
  cases scans with
  | cons first others =>
    exact first.in_step law agrees folded.head fun _ _ hcode hrem before after heq _ h =>
      hscans.prefix_of_completesRem law folded hcode hrem heq hrest h

/-- Folding keeps what lexemes without blanks in the code are written as. -/
theorem Scans.kept_written (law : table.Lawful) (scans : Scans table place lexemes)
    (folded : Folded lexemes) (agrees : place.Agrees mode (written lexemes)) :
    kept mode (written lexemes) [] = written lexemes := by
  induction lexemes generalizing place mode with
  | nil => rfl
  | cons lexeme lexemes ih =>
    obtain ⟨hkept, hagrees⟩ :=
      scans.in_step law folded agrees (Eq.refl (Text.content (written lexemes)))
    cases scans with
    | cons first others =>
      rw [written_cons, kept_append, List.append_nil, hkept, ih others folded.tail hagrees]

theorem ofText_eq_of_scans (law : table.Lawful) (scans : Scans table .lineStart lexemes)
    (h : written lexemes = kept .code text []) : ofText table text = lexemes := by
  rw [ofText, scan, text_fold, scanFrom_eq_iff law]
  exact ⟨scans, h⟩

/-- A text as it is typed is read as lexemes that the grammar allows, that hold no blanks in the
code, and that are written as what folding keeps of the text. -/
theorem ofText_spec (law : table.Lawful) (text : List Char) :
    Scans table .lineStart (ofText table text) ∧ Folded (ofText table text) ∧
      written (ofText table text) = kept .code text [] := by
  obtain ⟨scans, heq⟩ := (scanFrom_eq_iff law).mp (rfl : _ = ofText table text)
  rw [text_fold] at heq
  refine ⟨scans, ?_, heq⟩
  have agrees : Place.lineStart.Agrees .code (written (ofText table text)) := .inl rfl
  exact scans.folded law agrees (by rw [heq, (kept_kept .code text []).1])

end PocketBasic.Lexeme
