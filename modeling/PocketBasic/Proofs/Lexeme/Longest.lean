import PocketBasic.LineEnding
import PocketBasic.Proofs.Lexeme.Grammar

/-! The longest text of a shape. In front of a text there is at most one (`Longest.unique`), however
one would look for it. Line ends, numbers, marks and names are each the longest text of their shape
that stands where they do: a number ends where the scanner stops counting (`Numeral.longest`), and
for the short ones the next character decides (`longest_isLineEnd_iff`, `longest_isSymbol_iff`,
`longest_isName_iff`). -/

namespace PocketBasic

namespace Symbol

/-- How a symbol is written. -/
def text : Symbol → List Char
  | plus => ['+']
  | minus => ['-']
  | multiply => ['*']
  | divide => ['/']
  | power => ['^']
  | equal => ['=']
  | less => ['<']
  | greater => ['>']
  | lessEqual => ['<', '=']
  | greaterEqual => ['>', '=']
  | notEqual => ['<', '>']
  | leftParen => ['(']
  | rightParen => [')']
  | comma => [',']
  | semicolon => [';']
  | colon => [':']
  | hash => ['#']

theorem ofPair?_eq_some_iff {c d : Char} {symbol : Symbol} :
    ofPair? c d = some symbol ↔ symbol.text = [c, d] := by
  constructor
  · intro h
    unfold ofPair? at h
    split at h <;> cases h <;> rfl
  · intro h
    cases symbol <;> cases h <;> rfl

theorem ofChar?_eq_some_iff {c : Char} {symbol : Symbol} :
    ofChar? c = some symbol ↔ symbol.text = [c] := by
  constructor
  · intro h
    unfold ofChar? at h
    split at h <;> cases h <;> rfl
  · intro h
    cases symbol <;> cases h <;> rfl

theorem text_cases (symbol : Symbol) :
    (∃ c, symbol.text = [c]) ∨ ∃ c d, symbol.text = [c, d] := by
  cases symbol <;> simp [text]

end Symbol

namespace Lexeme

variable {shape : List Char → Prop} {word word' rest rest' text : List Char} {c : Char}

/-- The word is the longest text of the shape in front of it and `rest`. -/
structure Longest (shape : List Char → Prop) (word rest : List Char) : Prop where
  shaped : shape word
  longest : ∀ other, shape other → other <+: word ++ rest → other.length ≤ word.length

theorem Longest.unique (h : Longest shape word rest) (h' : Longest shape word' rest')
    (heq : word ++ rest = word' ++ rest') : word = word' ∧ rest = rest' := by
  have hle := h'.longest word h.shaped (heq ▸ List.prefix_append ..)
  have hge := h.longest word' h'.shaped (heq ▸ List.prefix_append ..)
  exact List.append_inj heq (Nat.le_antisymm hle hge)

/-! ### Digits and line ends -/

/-- A text of digits that is not empty. -/
def IsDigits (text : List Char) : Prop :=
  text ≠ [] ∧ Digits text

theorem longest_isDigits_iff :
    Longest IsDigits word rest ↔ IsDigits word ∧ startsDigit rest = false := by
  constructor
  · intro h
    refine ⟨h.shaped, ?_⟩
    rw [Bool.eq_false_iff]
    intro hstarts
    cases rest with
    | nil => contradiction
    | cons c rest =>
      have hc : c.isDigit = true := by simpa [startsDigit] using hstarts
      have hle := h.longest (word ++ [c])
        ⟨by simp, fun d hd => by
          rcases List.mem_append.mp hd with hd | hd
          · exact h.shaped.2 d hd
          · rwa [List.mem_singleton.mp hd]⟩
        ⟨rest, by simp⟩
      rw [List.length_append, List.length_singleton] at hle
      omega
  · rintro ⟨hshape, hrest⟩
    refine ⟨hshape, fun other hother hpre => ?_⟩
    rw [← digitRun_append hshape.2 hrest]
    obtain ⟨more, hmore⟩ := hpre
    rw [← hmore, digitRun, List.takeWhile_append_of_pos hother.2, List.length_append]
    exact Nat.le_add_right ..

/-- A text that ends a line. -/
def IsLineEnd (text : List Char) : Prop :=
  ∃ ending : LineEnding, ending.text = text

theorem longest_isLineEnd_iff : Longest IsLineEnd word rest ↔
    word = ['\r', '\n'] ∨ word = ['\r'] ∧ rest.head? ≠ some '\n' ∨ word = ['\n'] := by
  constructor
  · intro h
    obtain ⟨ending, rfl⟩ := h.shaped
    cases ending with
    | crlf => exact .inl rfl
    | lf => exact .inr (.inr rfl)
    | cr =>
      refine .inr (.inl ⟨rfl, fun hhead => ?_⟩)
      obtain ⟨more, rfl⟩ := List.head?_eq_some_iff.mp hhead
      have hle := h.longest _ ⟨.crlf, rfl⟩ ⟨more, rfl⟩
      exact absurd hle (by decide)
  · rintro (rfl | ⟨rfl, hhead⟩ | rfl)
    · refine ⟨⟨.crlf, rfl⟩, ?_⟩
      rintro _ ⟨ending, rfl⟩ -
      cases ending <;> decide
    · refine ⟨⟨.cr, rfl⟩, ?_⟩
      rintro _ ⟨ending, rfl⟩ ⟨more, hmore⟩
      cases ending with
      | crlf =>
        have hrest : '\n' :: more = rest := (List.cons.inj hmore).2
        simp [← hrest] at hhead
      | cr | lf => decide
    · refine ⟨⟨.lf, rfl⟩, ?_⟩
      rintro _ ⟨ending, rfl⟩ ⟨more, hmore⟩
      cases ending with
      | crlf => exact absurd (List.cons.inj hmore).1 (by decide)
      | cr | lf => decide

/-! ### Numbers -/

/-- The text has digits with or without a fraction, or a fraction that has digits itself. -/
structure Mantissa (whole fraction : List Char) : Prop where
  isWhole : Digits whole
  isFraction : Fraction fraction
  has_digit : whole = [] → ∃ c digits, fraction = '.' :: c :: digits

/-- A number in decimal, with or without an exponent. -/
def IsNumber (text : List Char) : Prop :=
  ∃ whole fraction exponent, text = whole ++ fraction ++ exponent ∧ Mantissa whole fraction ∧
    Exponent exponent

theorem length_le_digitRun {digits : List Char} (h : Digits digits) (rest : List Char) :
    digits.length ≤ digitRun (digits ++ rest) := by
  rw [digitRun, List.takeWhile_append_of_pos h, List.length_append]
  exact Nat.le_add_right ..

theorem length_le_exponentRun {exponent : List Char} (h : Exponent exponent) (rest : List Char) :
    exponent.length ≤ exponentRun (exponent ++ rest) := by
  rcases h with rfl | ⟨sign, digits, rfl, hsign, hne, hdigits⟩
  · exact Nat.zero_le _
  · have hrun : signRun (sign ++ digits ++ rest) = sign.length := signRun_append hsign hne hdigits
    have hle := length_le_digitRun hdigits rest
    have hpos := List.length_pos_of_ne_nil hne
    rw [List.cons_append, exponentRun, hrun, List.append_assoc, List.drop_left, if_neg (by omega),
      List.length_cons, List.length_append]
    omega

/-- The scanner counts every number that stands in front of a text. -/
theorem length_le_numberRun (h : IsNumber word) (hpre : word <+: text) :
    word.length ≤ numberRun text := by
  obtain ⟨whole, fraction, exponent, rfl, mantissa, hexponent⟩ := h
  obtain ⟨more, rfl⟩ := hpre
  have hexp := length_le_exponentRun hexponent more
  have hlen : (whole ++ fraction ++ exponent).length =
      whole.length + fraction.length + exponent.length := by simp [Nat.add_assoc]
  rw [hlen, numberRun]
  simp only [List.append_assoc]
  rcases mantissa.isFraction with rfl | ⟨digits, rfl, hdigits⟩
  · rcases hexponent with rfl | ⟨sign, digits, rfl, -⟩
    · have := length_le_digitRun mantissa.isWhole more
      simp only [List.nil_append, List.length_nil]
      omega
    · simp only [List.nil_append, List.cons_append] at hexp ⊢
      rw [digitRun_append mantissa.isWhole rfl, List.drop_left, fractionRun_eq_zero (by simp),
        Nat.add_zero, List.drop_left]
      simp only [List.length_nil]
      omega
  · rw [List.cons_append, digitRun_append mantissa.isWhole rfl, List.drop_left, fractionRun]
    rcases hexponent with rfl | ⟨sign, others, rfl, -⟩
    · have := length_le_digitRun hdigits ([] ++ more)
      simp only [List.length_cons, List.length_nil]
      omega
    · have hcut : whole ++ '.' :: (digits ++ ('E' :: (sign ++ others) ++ more)) =
          (whole ++ '.' :: digits) ++ ('E' :: (sign ++ others) ++ more) := by simp
      have hcount : whole.length + (1 + digits.length) = (whole ++ '.' :: digits).length := by
        rw [List.length_append, List.length_cons, Nat.add_comm 1]
      rw [digitRun_append hdigits rfl, hcount, hcut, List.drop_left]
      simp only [List.length_append, List.length_cons] at hexp ⊢
      omega

/-- Where the scanner stops counting is where the longest number ends. -/
theorem Numeral.longest {whole fraction exponent : List Char}
    (h : Numeral whole fraction exponent rest)
    (has_digit : whole = [] → ∃ c digits, fraction = '.' :: c :: digits) :
    Longest IsNumber (whole ++ fraction ++ exponent) rest where
  shaped :=
    ⟨whole, fraction, exponent, rfl, ⟨h.isWhole, h.isFraction, has_digit⟩, h.isExponent⟩
  longest _ hother hpre := h.numberRun_append ▸ length_le_numberRun hother hpre

/-- A number starts with a digit, or with a point and a digit. -/
theorem IsNumber.exists_digit (h : IsNumber word) :
    ∃ c tail, c.isDigit = true ∧ (word = c :: tail ∨ word = '.' :: c :: tail) := by
  obtain ⟨whole, fraction, exponent, rfl, mantissa, -⟩ := h
  cases whole with
  | cons c whole => exact ⟨c, _, mantissa.isWhole c List.mem_cons_self, .inl rfl⟩
  | nil =>
    obtain ⟨c, digits, rfl⟩ := mantissa.has_digit rfl
    refine ⟨c, _, ?_, .inr rfl⟩
    rcases mantissa.isFraction with hnil | ⟨_, hcons, hdigits⟩
    · cases hnil
    · exact hdigits c ((List.cons.inj hcons).2 ▸ List.mem_cons_self)

/-- A numeral without whole digits has digits in its fraction, where a number starts. -/
theorem Numeral.has_digit {fraction exponent after : List Char}
    (numeral : Numeral [] fraction exponent after) (number : IsNumber word)
    (heq : word ++ rest = fraction ++ (exponent ++ after)) :
    ∃ c digits, fraction = '.' :: c :: digits := by
  have hstart := numeral.startsDigit_exponent
  obtain ⟨c, tail, hc, rfl | rfl⟩ := number.exists_digit
  · rcases numeral.isFraction with rfl | ⟨digits, rfl, -⟩
    · rw [List.nil_append] at heq
      rw [← heq, List.cons_append, startsDigit, List.head?_cons, Option.any_some, hc] at hstart
      contradiction
    · obtain rfl := (List.cons.inj heq).1
      contradiction
  · rcases numeral.isFraction with rfl | ⟨digits, rfl, -⟩
    · rcases numeral.isExponent with rfl | ⟨sign, others, rfl, -⟩
      · refine absurd ?_ (numeral.not_point rfl rfl)
        rw [← List.nil_append after, ← List.nil_append ([] ++ after), ← heq]
        rfl
      · cases (List.cons.inj heq).1
    · cases digits with
      | cons d digits => exact ⟨d, digits, rfl⟩
      | nil =>
        have htail : c :: (tail ++ rest) = exponent ++ after := (List.cons.inj heq).2
        rw [← htail, startsDigit, List.head?_cons, Option.any_some, hc] at hstart
        contradiction

/-- A longest number is a numeral, and so it ends where the scanner stops counting. -/
theorem Longest.exists_numeral (h : Longest IsNumber word rest) :
    ∃ whole fraction exponent, word = whole ++ fraction ++ exponent ∧
      Numeral whole fraction exponent rest ∧
      (whole = [] → ∃ c digits, fraction = '.' :: c :: digits) := by
  obtain ⟨whole, fraction, exponent, after, heq, -, numeral⟩ := exists_numberRun (word ++ rest)
  have hdigit : whole = [] → ∃ c digits, fraction = '.' :: c :: digits := by
    rintro rfl
    rw [List.nil_append, List.append_assoc] at heq
    exact numeral.has_digit h.shaped heq
  obtain ⟨rfl, rfl⟩ := h.unique (numeral.longest hdigit) heq
  exact ⟨whole, fraction, exponent, rfl, numeral, hdigit⟩

/-! ### Marks -/

/-- How one of the symbols is written. -/
def IsSymbol (text : List Char) : Prop :=
  ∃ symbol : Symbol, symbol.text = text

/-- A mark takes the character after it along if both together are one. -/
theorem longest_isSymbol_iff {symbol : Symbol} : Longest IsSymbol symbol.text rest ↔
    (∃ c d, symbol.text = [c, d]) ∨
      ∃ c, symbol.text = [c] ∧ rest.head?.bind (Symbol.ofPair? c) = none := by
  constructor
  · intro h
    rcases symbol.text_cases with ⟨c, htext⟩ | hpair
    · refine .inr ⟨c, htext, ?_⟩
      cases hbind : rest.head?.bind (Symbol.ofPair? c) with
      | none => rfl
      | some pair =>
        obtain ⟨d, hhead, hpair⟩ := Option.bind_eq_some_iff.mp hbind
        obtain ⟨more, rfl⟩ := List.head?_eq_some_iff.mp hhead
        have hle := h.longest [c, d] ⟨pair, Symbol.ofPair?_eq_some_iff.mp hpair⟩
          ⟨more, by rw [htext]; rfl⟩
        rw [htext] at hle
        exact absurd hle (by simp)
    · exact .inl hpair
  · intro h
    refine ⟨⟨symbol, rfl⟩, ?_⟩
    rintro _ ⟨other, rfl⟩ ⟨more, hmore⟩
    rcases other.text_cases with ⟨c', hother⟩ | ⟨c', d', hother⟩
    · rw [hother]
      rcases symbol.text_cases with ⟨c, htext⟩ | ⟨c, d, htext⟩ <;> simp [htext]
    · rcases h with ⟨c, d, htext⟩ | ⟨c, htext, hbind⟩
      · rw [hother, htext]
        exact Nat.le_refl 2
      · rw [hother, htext] at hmore
        obtain ⟨rfl, hrest⟩ := List.cons.inj hmore
        have hpair := Symbol.ofPair?_eq_some_iff.mpr hother
        have hhead : d' :: more = rest := hrest
        rw [← hhead, List.head?_cons, Option.bind_some, hpair] at hbind
        contradiction

/-! ### Names -/

/-- A character, or a letter with a `$`. -/
def IsName (text : List Char) : Prop :=
  (∃ c, text = [c]) ∨ ∃ c, text = [c, '$'] ∧ c.isAlpha = true

theorem longest_isName_iff : Longest IsName word rest ↔ Identifier word rest := by
  constructor
  · intro h
    rcases h.shaped with ⟨c, rfl⟩ | ⟨c, rfl, hc⟩
    · refine .plain fun hc hhead => ?_
      obtain ⟨more, rfl⟩ := List.head?_eq_some_iff.mp hhead
      exact absurd (h.longest _ (.inr ⟨c, rfl, hc⟩) ⟨more, rfl⟩) (by simp)
    · exact .dollar hc
  · intro h
    cases h with
    | plain h =>
      refine ⟨.inl ⟨_, rfl⟩, ?_⟩
      rintro _ (⟨c, rfl⟩ | ⟨c, rfl, hc⟩) ⟨more, hmore⟩
      · exact Nat.le_refl 1
      · obtain ⟨rfl, hrest⟩ := List.cons.inj hmore
        have hhead : '$' :: more = rest := hrest
        exact absurd (hhead ▸ rfl) (h hc)
    | dollar h =>
      refine ⟨.inr ⟨_, rfl, h⟩, ?_⟩
      rintro _ (⟨c, rfl⟩ | ⟨c, rfl, -⟩) -
      · exact Nat.le_succ 1
      · exact Nat.le_refl 2

end Lexeme

end PocketBasic
