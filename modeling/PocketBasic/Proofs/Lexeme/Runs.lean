import PocketBasic.Lexeme.Basic

/-! What the counting functions of the scanner count: each run is the longest text of its shape in
front of what is read. The shapes are stated for a text together with what follows it
(`Numeral`, `Quoted`), and reading measures exactly them. -/

namespace PocketBasic.Lexeme

/-- Whether a text is at the end of its line. -/
def endsLine (text : List Char) : Bool :=
  text.head?.all isTerminator

/-- Whether a text has a digit in front. -/
def startsDigit (text : List Char) : Bool :=
  text.head?.any Char.isDigit

/-- A text of digits only. -/
def Digits (text : List Char) : Prop :=
  ∀ c ∈ text, c.isDigit = true

/-- A text that stays on its line. -/
def Inline (text : List Char) : Prop :=
  ∀ c ∈ text, isTerminator c = false

instance (text : List Char) : Decidable (Inline text) :=
  inferInstanceAs (Decidable (∀ c ∈ text, isTerminator c = false))

theorem inline_nil : Inline [] :=
  fun _ h => absurd h List.not_mem_nil

theorem inline_cons {c : Char} {text : List Char} (hc : isTerminator c = false)
    (h : Inline text) : Inline (c :: text) :=
  List.forall_mem_cons.mpr ⟨hc, h⟩

theorem startsDigit_nil : startsDigit [] = false := rfl

theorem takeWhile_eq_of_stop {p : Char → Bool} {run rest : List Char}
    (hrun : ∀ c ∈ run, p c = true) (hstop : rest.head?.any p = false) :
    (run ++ rest).takeWhile p = run := by
  rw [List.takeWhile_append_of_pos hrun]
  cases rest with
  | nil => simp
  | cons c rest => simp_all

theorem exists_run (p : Char → Bool) (text : List Char) :
    ∃ run rest, text = run ++ rest ∧ run = text.takeWhile p ∧ (∀ c ∈ run, p c = true) ∧
      rest.head?.any p = false := by
  refine ⟨text.takeWhile p, text.dropWhile p, List.takeWhile_append_dropWhile.symm, rfl,
    fun c hc => List.all_eq_true.mp List.all_takeWhile c hc, ?_⟩
  cases h : (text.dropWhile p).head? with
  | none => rfl
  | some c => simpa using List.head?_dropWhile_not p text |> fun h' => by simpa [h] using h'

/-! ### Digits and lines -/

theorem digitRun_append {digits rest : List Char} (h : Digits digits)
    (hrest : startsDigit rest = false) : digitRun (digits ++ rest) = digits.length := by
  rw [digitRun, takeWhile_eq_of_stop h hrest]

theorem exists_digitRun (text : List Char) :
    ∃ digits rest, text = digits ++ rest ∧ digitRun text = digits.length ∧ Digits digits ∧
      startsDigit rest = false := by
  obtain ⟨run, rest, heq, hrun, hdigits, hstop⟩ := exists_run Char.isDigit text
  exact ⟨run, rest, heq, by rw [digitRun, hrun], hdigits, hstop⟩

theorem lineRun_append {text rest : List Char} (h : Inline text) (hrest : endsLine rest = true) :
    lineRun (text ++ rest) = text.length := by
  rw [lineRun, takeWhile_eq_of_stop]
  · exact fun c hc => by simp [h c hc]
  · cases rest with
    | nil => rfl
    | cons c rest => simpa [endsLine] using hrest

theorem exists_lineRun (text : List Char) :
    ∃ line rest, text = line ++ rest ∧ lineRun text = line.length ∧ Inline line ∧
      endsLine rest = true := by
  obtain ⟨run, rest, heq, hrun, hline, hstop⟩ := exists_run (fun c => !isTerminator c) text
  refine ⟨run, rest, heq, by rw [lineRun, hrun], fun c hc => by simpa using hline c hc, ?_⟩
  cases rest with
  | nil => rfl
  | cons c rest => simpa [endsLine] using hstop

/-! ### Numbers -/

/-- A point and the digits after it, or nothing. -/
def Fraction (text : List Char) : Prop :=
  text = [] ∨ ∃ digits, text = '.' :: digits ∧ Digits digits

/-- An exponent with its digits, or nothing. -/
def Exponent (text : List Char) : Prop :=
  text = [] ∨ ∃ sign digits, text = 'E' :: (sign ++ digits) ∧
    (sign = [] ∨ sign = ['+'] ∨ sign = ['-']) ∧ digits ≠ [] ∧ Digits digits

/-- The text is the longest number in front of it and `rest`. -/
structure Numeral (whole fraction exponent rest : List Char) : Prop where
  isWhole : Digits whole
  isFraction : Fraction fraction
  isExponent : Exponent exponent
  not_digit : startsDigit rest = false
  not_point : fraction = [] → exponent = [] → rest.head? ≠ some '.'
  not_exponent : exponent = [] → exponentRun rest = 0

/-- A number ends in front of every text that does not go on with it. -/
theorem Numeral.of_rest {whole fraction exponent rest rest' : List Char}
    (h : Numeral whole fraction exponent rest) (hdigit : startsDigit rest' = false)
    (hpoint : rest.head? ≠ some '.' → rest'.head? ≠ some '.')
    (hexponent : exponentRun rest = 0 → exponentRun rest' = 0) :
    Numeral whole fraction exponent rest' :=
  { h with
    not_digit := hdigit
    not_point := fun hf he => hpoint (h.not_point hf he)
    not_exponent := fun he => hexponent (h.not_exponent he) }

theorem fractionRun_eq_zero {text : List Char} (h : text.head? ≠ some '.') :
    fractionRun text = 0 := by
  unfold fractionRun
  split
  next => simp at h
  next => rfl

theorem exists_fractionRun (text : List Char) :
    ∃ fraction rest, text = fraction ++ rest ∧ fractionRun text = fraction.length ∧
      Fraction fraction ∧ (fraction = [] → rest.head? ≠ some '.') ∧
      (fraction ≠ [] → startsDigit rest = false) := by
  unfold fractionRun
  split
  next rest =>
    obtain ⟨digits, after, rfl, hrun, hdigits, hstop⟩ := exists_digitRun rest
    exact ⟨'.' :: digits, after, rfl, by rw [hrun, List.length_cons, Nat.add_comm],
      .inr ⟨digits, rfl, hdigits⟩, by simp, fun _ => hstop⟩
  next hne =>
    refine ⟨[], text, rfl, rfl, .inl rfl, fun _ hhead => ?_, by simp⟩
    cases text with
    | nil => simp at hhead
    | cons c rest =>
      cases Option.some.inj hhead
      exact hne rest rfl

theorem fractionRun_append {fraction rest : List Char} (h : Fraction fraction)
    (hpoint : fraction = [] → rest.head? ≠ some '.')
    (hdigit : fraction ≠ [] → startsDigit rest = false) :
    fractionRun (fraction ++ rest) = fraction.length := by
  rcases h with rfl | ⟨digits, rfl, hdigits⟩
  · exact fractionRun_eq_zero (hpoint rfl)
  · rw [List.cons_append, fractionRun, digitRun_append hdigits (hdigit (by simp)),
      List.length_cons, Nat.add_comm]

theorem signRun_append {sign digits rest : List Char}
    (hsign : sign = [] ∨ sign = ['+'] ∨ sign = ['-']) (hne : digits ≠ []) (h : Digits digits) :
    signRun (sign ++ digits ++ rest) = sign.length := by
  rcases hsign with rfl | rfl | rfl
  · cases digits with
    | nil => exact absurd rfl hne
    | cons d digits =>
      have hd := h d List.mem_cons_self
      simp only [List.nil_append, List.cons_append]
      unfold signRun
      split
      next heq => cases (List.cons.inj heq).1; simp at hd
      next heq => cases (List.cons.inj heq).1; simp at hd
      next => rfl
  · rfl
  · rfl

theorem exponentRun_append {exponent rest : List Char} (h : Exponent exponent)
    (hne : exponent ≠ []) (hrest : startsDigit rest = false) :
    exponentRun (exponent ++ rest) = exponent.length := by
  rcases h with rfl | ⟨sign, digits, rfl, hsign, hdigits, hall⟩
  · exact absurd rfl hne
  · have hrun : signRun (sign ++ digits ++ rest) = sign.length := signRun_append hsign hdigits hall
    rw [List.cons_append, exponentRun, hrun, List.append_assoc, List.drop_left,
      digitRun_append hall hrest, if_neg (by simpa using hdigits)]
    simp only [List.length_cons, List.length_append]
    omega

/-- An exponent starts with its letter. -/
theorem exponentRun_eq_zero_of_head {text : List Char} (h : text.head? ≠ some 'E') :
    exponentRun text = 0 := by
  unfold exponentRun
  split
  next => simp at h
  next => rfl

theorem exists_exponentRun (text : List Char) :
    ∃ exponent rest, text = exponent ++ rest ∧ exponentRun text = exponent.length ∧
      Exponent exponent ∧ (exponent = [] → exponentRun rest = 0) ∧
      (exponent ≠ [] → startsDigit rest = false) := by
  by_cases hzero : exponentRun text = 0
  · exact ⟨[], text, rfl, hzero, .inl rfl, fun _ => hzero, by simp⟩
  cases text with
  | nil => exact absurd rfl hzero
  | cons c rest =>
    by_cases hc : c = 'E'
    · subst hc
      obtain ⟨digits, after, hafter, hrun, hdigits, hstop⟩ :=
        exists_digitRun (rest.drop (signRun rest))
      rw [exponentRun, hrun] at hzero ⊢
      have hne : digits.length ≠ 0 := fun h => hzero (by rw [if_pos h])
      have hsign : rest.take (signRun rest) = [] ∧ signRun rest = 0 ∨
          rest.take (signRun rest) = ['+'] ∧ signRun rest = 1 ∨
          rest.take (signRun rest) = ['-'] ∧ signRun rest = 1 := by
        unfold signRun
        split <;> simp
      refine ⟨'E' :: (rest.take (signRun rest) ++ digits), after, ?_, ?_, ?_, by simp,
        fun _ => hstop⟩
      · rw [List.cons_append, List.append_assoc, ← hafter, List.take_append_drop]
      · rw [if_neg hne, List.length_cons, List.length_append]
        rcases hsign with ⟨htake, hlen⟩ | ⟨htake, hlen⟩ | ⟨htake, hlen⟩ <;>
          rw [htake, hlen] <;> simp <;> omega
      · refine .inr ⟨_, digits, rfl, ?_, by simpa using hne, hdigits⟩
        rcases hsign with ⟨htake, _⟩ | ⟨htake, _⟩ | ⟨htake, _⟩ <;> simp [htake]
    · exact absurd (exponentRun_eq_zero_of_head (by simpa using hc)) hzero

namespace Numeral

variable {whole fraction exponent rest : List Char}

/-- Where the longest number ends, after its whole part. -/
theorem exponentRun_append (h : Numeral whole fraction exponent rest) :
    exponentRun (exponent ++ rest) = exponent.length := by
  cases hexp : exponent with
  | nil => rw [List.nil_append, h.not_exponent hexp, List.length_nil]
  | cons c others =>
    rw [← hexp]
    exact Lexeme.exponentRun_append h.isExponent (by simp [hexp]) h.not_digit

theorem startsDigit_exponent (h : Numeral whole fraction exponent rest) :
    startsDigit (exponent ++ rest) = false := by
  rcases h.isExponent with rfl | ⟨sign, digits, rfl, _⟩
  · exact h.not_digit
  · rfl

private theorem startsDigit_fraction (h : Numeral whole fraction exponent rest) :
    startsDigit (fraction ++ (exponent ++ rest)) = false := by
  rcases h.isFraction with rfl | ⟨digits, rfl, _⟩
  · exact h.startsDigit_exponent
  · rfl

theorem numberRun_append (h : Numeral whole fraction exponent rest) :
    numberRun (whole ++ fraction ++ exponent ++ rest) =
      (whole ++ fraction ++ exponent).length := by
  have hpoint : fraction = [] → (exponent ++ rest).head? ≠ some '.' := by
    intro hfraction
    rcases h.isExponent with hexp | ⟨sign, digits, hexp, _⟩
    · rw [hexp]
      exact h.not_point hfraction hexp
    · rw [hexp]
      simp
  have hwhole := digitRun_append h.isWhole h.startsDigit_fraction
  have hfraction := fractionRun_append h.isFraction hpoint fun _ => h.startsDigit_exponent
  simp only [List.append_assoc, numberRun] at *
  rw [hwhole, List.drop_left, hfraction, ← List.drop_drop, List.drop_left, List.drop_left,
    h.exponentRun_append]
  simp only [List.length_append]
  omega

end Numeral

theorem exists_numberRun (text : List Char) :
    ∃ whole fraction exponent rest, text = whole ++ fraction ++ exponent ++ rest ∧
      numberRun text = (whole ++ fraction ++ exponent).length ∧
      Numeral whole fraction exponent rest := by
  obtain ⟨whole, rest1, rfl, hwhole, hdigits, hstop1⟩ := exists_digitRun text
  obtain ⟨fraction, rest2, rfl, hfraction, isFraction, hpoint, hstop2⟩ := exists_fractionRun rest1
  obtain ⟨exponent, rest3, rfl, hexponent, isExponent, hzero, hstop3⟩ := exists_exponentRun rest2
  refine ⟨whole, fraction, exponent, rest3, by simp only [List.append_assoc], ?_, hdigits,
    isFraction, isExponent, ?_, ?_, hzero⟩
  · rw [numberRun, hwhole, List.drop_left, hfraction, ← List.drop_drop, List.drop_left,
      List.drop_left, hexponent]
    simp only [List.length_append]
  · by_cases hexp : exponent = []
    · subst hexp
      by_cases hfrac : fraction = []
      · subst hfrac
        exact hstop1
      · exact hstop2 hfrac
    · exact hstop3 hexp
  · rintro rfl rfl
    exact hpoint rfl

/-- A number that starts with its point. -/
theorem fractionalRun_append {digits exponent rest : List Char}
    (h : Numeral [] ('.' :: digits) exponent rest) :
    fractionalRun (digits ++ exponent ++ rest) = (digits ++ exponent).length := by
  have hdigits : Digits digits := by
    rcases h.isFraction with hnil | ⟨_, heq, hdigits⟩
    · simp at hnil
    · exact (List.cons.inj heq).2 ▸ hdigits
  rw [List.append_assoc, fractionalRun, digitRun_append hdigits h.startsDigit_exponent,
    List.drop_left, h.exponentRun_append, List.length_append]

theorem exists_fractionalRun (text : List Char) :
    ∃ digits exponent rest, text = digits ++ exponent ++ rest ∧
      fractionalRun text = (digits ++ exponent).length ∧
      Numeral [] ('.' :: digits) exponent rest := by
  obtain ⟨digits, rest1, rfl, hdigits, hall, hstop1⟩ := exists_digitRun text
  obtain ⟨exponent, rest2, rfl, hexponent, isExponent, hzero, hstop2⟩ := exists_exponentRun rest1
  refine ⟨digits, exponent, rest2, by rw [List.append_assoc], ?_, by simp [Digits],
    .inr ⟨digits, rfl, hall⟩, isExponent, ?_, by simp, hzero⟩
  · rw [fractionalRun, hdigits, List.drop_left, hexponent, List.length_append]
  · by_cases hexp : exponent = []
    · subst hexp
      exact hstop1
    · exact hstop2 hexp

/-! ### Strings -/

/-- What follows the quote that opens a string, up to the quote that closes it or else up to the
end of the line. -/
inductive Quoted : List Char → List Char → Prop where
  | closed {text rest : List Char} (h : Inline text) (hq : '"' ∉ text) :
      Quoted (text ++ ['"']) rest
  | opened {text rest : List Char} (h : Inline text) (hq : '"' ∉ text)
      (hend : endsLine rest = true) : Quoted text rest

theorem stringRun_append_of_inline {text : List Char} (h : Inline text) (hq : '"' ∉ text)
    (rest : List Char) : stringRun (text ++ rest) = text.length + stringRun rest := by
  induction text with
  | nil => simp
  | cons c text ih =>
    have hne : c ≠ '"' := fun hc => hq (hc ▸ List.mem_cons_self)
    have hline : isTerminator c = false := h c List.mem_cons_self
    rw [List.cons_append, stringRun, if_neg hne, hline, if_neg (by simp),
      ih (fun d hd => h d (List.mem_cons_of_mem _ hd)) fun hd => hq (List.mem_cons_of_mem _ hd),
      List.length_cons]
    omega

theorem Quoted.stringRun_append {text rest : List Char} (h : Quoted text rest) :
    stringRun (text ++ rest) = text.length := by
  cases h with
  | @closed text _ h hq =>
    rw [List.append_assoc, stringRun_append_of_inline h hq, List.length_append]
    rfl
  | opened h hq hend =>
    rw [stringRun_append_of_inline h hq]
    cases rest with
    | nil => rfl
    | cons c rest =>
      have hc : isTerminator c = true := by simpa [endsLine] using hend
      have hne : c ≠ '"' := by rintro rfl; simp [isTerminator] at hc
      rw [stringRun, if_neg hne, if_pos hc, Nat.add_zero]

theorem exists_stringRun (text : List Char) :
    ∃ string rest, text = string ++ rest ∧ stringRun text = string.length ∧
      Quoted string rest := by
  obtain ⟨run, rest, heq, _, hall, hstop⟩ :=
    exists_run (fun c => !isTerminator c && c != '"') text
  simp only [Bool.and_eq_true, Bool.not_eq_true', bne_iff_ne] at hall
  have hline : Inline run := fun c hc => (hall c hc).1
  have hq : '"' ∉ run := fun hc => (hall _ hc).2 rfl
  subst heq
  cases rest with
  | nil => exact ⟨run, [], rfl, by rw [stringRun_append_of_inline hline hq]; rfl,
      .opened hline hq rfl⟩
  | cons c rest =>
    by_cases hc : c = '"'
    · subst hc
      refine ⟨run ++ ['"'], rest, by simp, ?_, .closed hline hq⟩
      rw [stringRun_append_of_inline hline hq, List.length_append]
      rfl
    · have hend : endsLine (c :: rest) = true := by
        simpa [endsLine, hc] using hstop
      have h : Quoted run (c :: rest) := .opened hline hq hend
      exact ⟨run, c :: rest, rfl, h.stringRun_append, h⟩

end PocketBasic.Lexeme
