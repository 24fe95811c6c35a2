import PocketBasic.Proofs.Lexeme.Modes

/-! What a lexeme asks of the text after it. Most lexemes look at its first character, and numbers
look for an exponent there (`SameFront`, `FrontKept`). A word asks for more: no `REM` starts inside
of it, and no longer word stands in its place (`Bounded`). A lexeme is read in front of every other
text for which this holds too (`Opens.congr`), and so of one that is longer, if nothing goes on into
what is added (`Opens.append`). -/

namespace PocketBasic.Lexeme

variable {table : Keyword.Table} {place : Place} {lexeme : Lexeme} {text rest rest' : List Char}

/-! ### The front of a text -/

/-- The texts look the same to a lexeme in front of them that is not a word. -/
structure SameFront (rest rest' : List Char) : Prop where
  head_eq : rest'.head? = rest.head?
  not_exponent : exponentRun rest = 0 → exponentRun rest' = 0

/-- What a lexeme that ends no line and is no word asks of the front of the text after it: it is
still there in `rest'`. -/
structure FrontKept (rest rest' : List Char) : Prop where
  endsLine : endsLine rest = true → endsLine rest' = true
  startsDigit : startsDigit rest' = startsDigit rest
  head_ne : ∀ {c}, isTerminator c = false → rest.head? ≠ some c → rest'.head? ≠ some c
  not_exponent : exponentRun rest = 0 → exponentRun rest' = 0

theorem SameFront.kept (same : SameFront rest rest') : FrontKept rest rest' where
  endsLine h := by rwa [Lexeme.endsLine, same.head_eq]
  startsDigit := by rw [Lexeme.startsDigit, Lexeme.startsDigit, same.head_eq]
  head_ne _ h := by rwa [same.head_eq]
  not_exponent := same.not_exponent

theorem head_ne_of_endsLine {c : Char} (h : endsLine text = true) (hc : isTerminator c = false) :
    text.head? ≠ some c := by
  intro hhead
  rw [endsLine, hhead, Option.all_some, hc] at h
  contradiction

theorem startsDigit_of_endsLine (h : endsLine text = true) : startsDigit text = false := by
  cases text with
  | nil => rfl
  | cons c text => rcases isTerminator_iff.mp h with rfl | rfl <;> rfl

namespace FrontKept

/-- The end of a line is the same to a lexeme, however the line ends. -/
theorem of_endsLine (h : Lexeme.endsLine rest = true) (h' : Lexeme.endsLine rest' = true) :
    FrontKept rest rest' where
  endsLine _ := h'
  startsDigit := (startsDigit_of_endsLine h').trans (startsDigit_of_endsLine h).symm
  head_ne hc _ := head_ne_of_endsLine h' hc
  not_exponent _ := exponentRun_eq_zero_of_head (head_ne_of_endsLine h' rfl)

theorem numeral (kept : FrontKept rest rest') {whole fraction exponent : List Char}
    (h : Numeral whole fraction exponent rest) : Numeral whole fraction exponent rest' :=
  h.of_rest (kept.startsDigit.trans h.not_digit) (kept.head_ne rfl) kept.not_exponent

theorem quoted (kept : FrontKept rest rest') (h : Quoted text rest) : Quoted text rest' := by
  cases h with
  | closed hline hq => exact .closed hline hq
  | opened hline hq hend => exact .opened hline hq (kept.endsLine hend)

theorem not_pair (kept : FrontKept rest rest') {c : Char}
    (h : rest.head?.bind (Symbol.ofPair? c) = none) :
    rest'.head?.bind (Symbol.ofPair? c) = none := by
  refine Option.bind_eq_none_iff.mpr fun d hd => ?_
  refine Option.eq_none_iff_forall_ne_some.mpr fun symbol hpair => ?_
  have hplain := (isPlain_of_ofPair? hpair d (by simp)).1
  refine kept.head_ne (not_terminator_of_isPlain hplain) (fun hhead => ?_) hd
  rw [hhead, Option.bind_some, hpair] at h
  contradiction

theorem startsWord (kept : FrontKept rest rest') {c : Char} {tail : List Char}
    (h : Lexeme.startsWord c (tail ++ rest) = true) :
    Lexeme.startsWord c (tail ++ rest') = true := by
  cases tail with
  | nil => simpa only [Lexeme.startsWord, List.nil_append, kept.startsDigit] using h
  | cons d tail => exact h

theorem identifier (kept : FrontKept rest rest') (h : Identifier text rest) :
    Identifier text rest' := by
  cases h with
  | plain h => exact .plain fun halpha => kept.head_ne rfl (h halpha)
  | dollar h => exact .dollar h

end FrontKept

/-! ### Words -/

/-- In front of `rest`, no `REM` starts inside of the text, and no word reaches beyond it. -/
structure Bounded (table : Keyword.Table) (text rest : List Char) : Prop where
  not_rem : ∀ i < text.length, ¬ remWord <+: (text ++ rest).drop i
  longest : ∀ word, table.Spells word → Stands word (text ++ rest) → word.length ≤ text.length

theorem InCode.not_prefix_drop (inCode : InCode text rest) {i : Nat} (hi : i < text.length) :
    ¬ remWord <+: (text ++ rest).drop i := by
  rintro ⟨more, hmore⟩
  rw [List.drop_append_of_le_length (Nat.le_of_lt hi), List.drop_eq_getElem_cons hi] at hmore
  obtain ⟨hletter, hafter⟩ := List.cons.inj hmore
  have hcut : text = text.take i ++ 'R' :: text.drop (i + 1) := by
    rw [show 'R' = text[i] from hletter, List.getElem_cons_drop, List.take_append_drop]
  exact inCode.not_rem hcut ⟨more, hafter⟩

/-- Words are bounded where they are read. -/
theorem Opens.bounded (law : table.Lawful) (first : Opens table place lexeme rest)
    (hword : lexeme.kind = .keyword ∨ lexeme.kind = .identifier) (hrem : lexeme.isRem = false) :
    Bounded table lexeme.text rest := by
  have hcode : lexeme.isVerbatim = false := by rcases hword with h | h <;> simp [isVerbatim, h]
  have hline : lexeme.kind ≠ .newline := by rcases hword with h | h <;> simp [h]
  obtain ⟨-, inCode⟩ := first.inCode law hcode hline hrem
  refine ⟨fun i hi => inCode.not_prefix_drop hi, fun word hspells hstands => ?_⟩
  cases first with
  | rem => contradiction
  | keyword _ _ _ _ hlongest => exact hlongest word hspells hstands
  | identifier _ _ _ _ hwordless => exact absurd hstands (hwordless.not_stands word hspells)
  | crlf | cr | lf | remark | lineNumber | number | fractional | string | comment | pair
    | mark => simp at hword

/-- A bounded spelling of a keyword is read as such. -/
theorem Bounded.opens (bounded : Bounded table text rest) (hplace : place ≠ .afterRem)
    (hspells : table.Spells text) (hne : text ≠ []) : Opens table place ⟨.keyword, text⟩ rest := by
  refine .keyword hplace hspells ?_ ⟨List.prefix_append .., fun i _ hi => bounded.not_rem i hi⟩
    bounded.longest
  exact bounded.not_rem 0 (List.length_pos_of_ne_nil hne)

/-- Where no word is and none reaches beyond the text, no word is in front of another rest. -/
theorem Bounded.wordless (bounded : Bounded table text rest') (hne : text ≠ [])
    (hwordless : Wordless table (text ++ rest)) (hrem : ∀ i < text.length,
      ¬ remWord <+: (text ++ rest).drop i) : Wordless table (text ++ rest') where
  not_rem := bounded.not_rem 0 (List.length_pos_of_ne_nil hne)
  not_stands word hspells hstands := by
    have hle := bounded.longest word hspells hstands
    refine hwordless.not_stands word hspells ⟨?_, fun i _ hi => hrem i (by omega)⟩
    have hpre := List.prefix_of_prefix_length_le hstands.isPrefix (List.prefix_append text rest') hle
    exact hpre.trans (List.prefix_append text rest)

/-- A lexeme that ends no line is read in front of every text that keeps what it asks for and that
bounds it, if it is a word. -/
theorem Opens.congr_kept (law : table.Lawful) (first : Opens table place lexeme rest)
    (hline : lexeme.kind ≠ .newline) (kept : FrontKept rest rest')
    (bounded : lexeme.kind = .keyword ∨ lexeme.kind = .identifier → lexeme.isRem = false →
      Bounded table lexeme.text rest') : Opens table place lexeme rest' := by
  have original := first
  cases first with
  | crlf | cr | lf => exact absurd rfl hline
  | remark hne hinline hend => exact .remark hne hinline (kept.endsLine hend)
  | lineNumber hne hdigits hrest =>
    exact .lineNumber hne hdigits (kept.startsDigit.trans hrest)
  | number h hwhole => exact .number (kept.numeral h) hwhole
  | fractional hplace h hdigits => exact .fractional hplace (kept.numeral h) hdigits
  | string hplace h => exact .string hplace (kept.quoted h)
  | comment hplace hinline hend => exact .comment hplace hinline (kept.endsLine hend)
  | rem hplace => exact .rem hplace
  | keyword hplace hspells hrem =>
    obtain ⟨c, others, hcons, -⟩ := hspells.exists_cons law
    exact (bounded (.inl rfl) (isRem_of_not_isPrefix hrem)).opens hplace hspells (by simp [hcons])
  | pair hplace h => exact .pair hplace h
  | mark hplace h hpair => exact .mark hplace h (kept.not_pair hpair)
  | identifier hplace hc hmark h hwordless =>
    have hrem := (original.bounded law (.inr rfl) rfl).not_rem
    exact .identifier hplace (kept.startsWord hc) hmark (kept.identifier h)
      ((bounded (.inr rfl) rfl).wordless (by simp) hwordless hrem)

/-- A lexeme is read in front of every text that looks the same to it and that bounds it, if it is
a word. -/
theorem Opens.congr (law : table.Lawful) (first : Opens table place lexeme rest)
    (same : SameFront rest rest')
    (bounded : lexeme.kind = .keyword ∨ lexeme.kind = .identifier → lexeme.isRem = false →
      Bounded table lexeme.text rest') : Opens table place lexeme rest' := by
  by_cases hline : lexeme.kind = .newline
  · cases first with
    | crlf => exact .crlf
    | cr h => exact .cr (by rwa [same.head_eq])
    | lf => exact .lf
    | _ => contradiction
  · exact first.congr_kept law hline same.kept bounded

/-! ### Exponents -/

theorem signRun_cons_of_ne {c : Char} (hplus : c ≠ '+') (hminus : c ≠ '-') (text : List Char) :
    signRun (c :: text) = 0 := by
  unfold signRun
  split
  next heq => cases heq; exact absurd rfl hplus
  next heq => cases heq; exact absurd rfl hminus
  next => rfl

section
variable {b b' : List Char}

theorem digitRun_append_congr (h : startsDigit b = false) (h' : startsDigit b' = false)
    (a : List Char) : digitRun (a ++ b) = digitRun (a ++ b') := by
  have stops {text : List Char} (h : startsDigit text = false) :
      text.takeWhile Char.isDigit = [] := by
    rw [← List.nil_append text]
    exact takeWhile_eq_of_stop (fun _ hc => absurd hc List.not_mem_nil) h
  rw [digitRun, digitRun, List.takeWhile_append, List.takeWhile_append, stops h, stops h']

theorem signRun_append_congr (h : signRun b = 0) (h' : signRun b' = 0) (a : List Char) :
    signRun (a ++ b) = signRun (a ++ b') ∧ signRun (a ++ b) ≤ a.length := by
  cases a with
  | nil => exact ⟨h.trans h'.symm, Nat.le_of_eq h⟩
  | cons d a =>
    by_cases hplus : d = '+'
    · subst hplus
      exact ⟨rfl, by simp [signRun]⟩
    by_cases hminus : d = '-'
    · subst hminus
      exact ⟨rfl, by simp [signRun]⟩
    rw [List.cons_append, List.cons_append, signRun_cons_of_ne hplus hminus,
      signRun_cons_of_ne hplus hminus]
    exact ⟨rfl, Nat.zero_le _⟩

/-- Whether an exponent starts is settled by what may be part of it. -/
theorem exponentRun_append_congr (hdigit : startsDigit b = false) (hdigit' : startsDigit b' = false)
    (hsign : signRun b = 0) (hsign' : signRun b' = 0) (e : Char) (a : List Char) :
    exponentRun (e :: a ++ b) = exponentRun (e :: a ++ b') := by
  by_cases he : e = 'E'
  · subst he
    obtain ⟨heq, hle⟩ := signRun_append_congr hsign hsign' a
    rw [List.cons_append, List.cons_append, exponentRun, exponentRun, ← heq,
      List.drop_append_of_le_length hle, List.drop_append_of_le_length hle,
      digitRun_append_congr hdigit hdigit']
  · rw [exponentRun_eq_zero_of_head (by simpa using he),
      exponentRun_eq_zero_of_head (by simpa using he)]

end

/-- An exponent does not reach over a letter. -/
theorem exponentRun_append_letter {c : Char} (hc : c.isUpper = true) (e : Char)
    (a b b' : List Char) : exponentRun (e :: a ++ c :: b) = exponentRun (e :: a ++ c :: b') := by
  have hsign (text : List Char) : signRun (c :: text) = 0 :=
    signRun_cons_of_ne (ne_of_isUpper hc (by decide)) (ne_of_isUpper hc (by decide)) text
  have hdigit (text : List Char) : startsDigit (c :: text) = false := isDigit_of_isUpper hc
  exact exponentRun_append_congr (hdigit b) (hdigit b') (hsign b) (hsign b') e a

/-! ### Texts that are added -/

/-- Nothing that starts in front of `rest` goes on over its end into `more`: no number, no word and
no `REM`. -/
structure Apart (table : Keyword.Table) (rest more : List Char) : Prop where
  not_digit : startsDigit more = false
  not_sign : signRun more = 0
  stops : ∀ {word front}, table.Spells word ∨ word = remWord →
    word <+: front ++ rest ++ more → word <+: front ++ rest

theorem Bounded.append (bounded : Bounded table text rest) {more : List Char}
    (apart : Apart table rest more) : Bounded table text (rest ++ more) where
  not_rem i hi hrem := by
    have hle := Nat.le_of_lt hi
    apply bounded.not_rem i hi
    rw [List.drop_append_of_le_length hle, ← List.append_assoc] at hrem
    rw [List.drop_append_of_le_length hle]
    exact apart.stops (.inr rfl) hrem
  longest word hspells hstands := by
    rw [← List.append_assoc] at hstands
    have hpre := apart.stops (.inl hspells) hstands.isPrefix
    refine bounded.longest word hspells ⟨hpre, fun i hpos hi hrem => ?_⟩
    refine hstands.uninterrupted i hpos hi ?_
    rw [List.drop_append_of_le_length (by have := hpre.length_le; omega)]
    exact hrem.trans (List.prefix_append ..)

/-- A lexeme with something after it is read in front of all that is added to that. -/
theorem Opens.append (law : table.Lawful) (first : Opens table place lexeme rest) (hne : rest ≠ [])
    {more : List Char} (apart : Apart table rest more) :
    Opens table place lexeme (rest ++ more) := by
  cases rest with
  | nil => contradiction
  | cons e rest =>
    refine first.congr law ⟨rfl, fun h => ?_⟩ fun hword hrem =>
      (first.bounded law hword hrem).append apart
    rwa [exponentRun_append_congr apart.not_digit startsDigit_nil apart.not_sign rfl,
      List.append_nil]

/-! ### Remarks -/

theorem prefix_iff_of_length_le {word a b c : List Char} (h : word.length ≤ a.length) :
    word <+: a ++ b ↔ word <+: a ++ c := by
  constructor
  · exact fun hpre => (List.prefix_of_prefix_length_le hpre (List.prefix_append a b) h).trans
      (List.prefix_append a c)
  · exact fun hpre => (List.prefix_of_prefix_length_le hpre (List.prefix_append a c) h).trans
      (List.prefix_append a b)

/-- Where a `REM` starts up to a given one does not depend on what follows it. -/
theorem remWord_prefix_drop_iff {front : List Char} (b b' : List Char) {i : Nat}
    (hi : i ≤ front.length) :
    remWord <+: (front ++ remWord ++ b).drop i ↔ remWord <+: (front ++ remWord ++ b').drop i := by
  rw [List.append_assoc, List.append_assoc, List.drop_append_of_le_length hi,
    List.drop_append_of_le_length hi, ← List.append_assoc, ← List.append_assoc]
  exact prefix_iff_of_length_le (by simp)

/-- No word stands beyond a `REM`, whatever follows it. -/
theorem Stands.append_remWord {word front b : List Char} (hne : front ≠ [])
    (h : Stands word (front ++ remWord ++ b)) (b' : List Char) :
    Stands word (front ++ remWord ++ b') := by
  have hle : word.length ≤ front.length := by
    refine Nat.le_of_not_lt fun hlt => ?_
    refine h.uninterrupted front.length (List.length_pos_of_ne_nil hne) hlt ?_
    rw [List.append_assoc, List.drop_left]
    exact List.prefix_append remWord b
  refine ⟨?_, fun i hpos hi hrem => h.uninterrupted i hpos hi ?_⟩
  · have hpre := h.isPrefix
    rw [List.append_assoc] at hpre ⊢
    exact (prefix_iff_of_length_le hle).mp hpre
  · exact (remWord_prefix_drop_iff b' b (by omega)).mp hrem

/-- What follows a `REM` is nothing to the lexemes in front of it. -/
theorem Opens.congr_remWord (law : table.Lawful) {a b b' : List Char}
    (first : Opens table place lexeme (a ++ remWord ++ b)) :
    Opens table place lexeme (a ++ remWord ++ b') := by
  refine first.congr law ⟨by cases a <;> rfl, fun h => ?_⟩ fun hword hrem => ?_
  · cases a with
    | nil => rfl
    | cons e a =>
      rw [List.append_assoc] at h ⊢
      exact (exponentRun_append_letter (c := 'R') (by decide) e a _ _).trans h
  have hne : lexeme.text ++ a ≠ [] := by simp [first.text_ne_nil law]
  obtain ⟨hnot, hlongest⟩ := first.bounded law hword hrem
  have assoc (b : List Char) : lexeme.text ++ (a ++ remWord ++ b) =
      lexeme.text ++ a ++ remWord ++ b := by simp
  rw [assoc] at hnot hlongest
  refine ⟨fun i hi hstarts => hnot i hi ?_, fun word hspells hstands => ?_⟩
  · rw [assoc] at hstarts
    exact (remWord_prefix_drop_iff b' b (by rw [List.length_append]; omega)).mp hstarts
  · rw [assoc] at hstands
    exact hlongest word hspells (hstands.append_remWord hne b)

end PocketBasic.Lexeme
