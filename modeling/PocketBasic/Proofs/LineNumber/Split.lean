import PocketBasic.LineNumber
import PocketBasic.Proofs.Text.Content

/-! Taking the number off the front of a line. The digits that are read are the ones in front of the
content of the line, so blanks between them do not count (`leadingDigits_fst`), and a number that is
written in front of a text without digits is read back (`split_append`). -/

namespace PocketBasic.LineNumber

open Text

theorem not_blank_of_isDigit {c : Char} (h : c.isDigit = true) : isBlank c = false := by
  rw [Bool.eq_false_iff]
  intro hblank
  simp only [isBlank, Bool.or_eq_true, beq_iff_eq] at hblank
  rcases hblank with rfl | rfl <;> simp at h

/-- A digit is read, a blank is read over if there is a digit after it, and nothing is read
otherwise. -/
theorem leadingDigits_cons_cases (c : Char) (rest : List Char) :
    (c.isDigit = true ∧
      leadingDigits (c :: rest) = (c :: (leadingDigits rest).1, (leadingDigits rest).2)) ∨
    (isBlank c = true ∧ (leadingDigits rest).1 ≠ [] ∧
      leadingDigits (c :: rest) = leadingDigits rest) ∨
    (c.isDigit = false ∧ (isBlank c = true → (leadingDigits rest).1 = []) ∧
      leadingDigits (c :: rest) = ([], c :: rest)) := by
  rw [leadingDigits]
  split
  next hdigit => exact .inl ⟨hdigit, rfl⟩
  next hdigit =>
    rw [Bool.not_eq_true] at hdigit
    split
    next hblank =>
      split
      next heq => exact .inr (.inr ⟨hdigit, fun _ => by rw [heq], rfl⟩)
      next hne => exact .inr (.inl ⟨hblank, fun hnil => hne _ (Prod.ext hnil rfl), rfl⟩)
    next hblank => exact .inr (.inr ⟨hdigit, fun h => absurd h hblank, rfl⟩)

/-- The digits of a line are those in front of its content. -/
theorem leadingDigits_fst (line : List Char) :
    (leadingDigits line).1 = (content line).takeWhile Char.isDigit := by
  induction line with
  | nil => rfl
  | cons c rest ih =>
    rcases leadingDigits_cons_cases c rest with
      ⟨hdigit, heq⟩ | ⟨hblank, -, heq⟩ | ⟨hdigit, hrest, heq⟩
    · rw [heq, content_cons_of_not_blank (not_blank_of_isDigit hdigit), List.takeWhile_cons,
        if_pos hdigit, ← ih]
    · rw [heq, content_cons_of_blank hblank, ih]
    · rw [heq]
      cases hblank : isBlank c with
      | true => rw [content_cons_of_blank hblank, ← ih, hrest hblank]
      | false =>
        rw [content_cons_of_not_blank hblank, List.takeWhile_cons, hdigit,
          if_neg Bool.false_ne_true]

/-- What follows the digits of a line is the end of it. -/
theorem leadingDigits_snd_suffix (line : List Char) : (leadingDigits line).2 <:+ line := by
  induction line with
  | nil => exact List.suffix_rfl
  | cons c rest ih =>
    have hrest := ih.trans (List.suffix_cons c rest)
    rcases leadingDigits_cons_cases c rest with ⟨-, heq⟩ | ⟨-, -, heq⟩ | ⟨-, -, heq⟩
    · rwa [heq]
    · rwa [heq]
    · simp [heq]

/-- The content of a line is its digits and what follows them. -/
theorem content_eq_leadingDigits (line : List Char) :
    content line = (leadingDigits line).1 ++ content (leadingDigits line).2 := by
  induction line with
  | nil => rfl
  | cons c rest ih =>
    rcases leadingDigits_cons_cases c rest with ⟨hdigit, heq⟩ | ⟨hblank, -, heq⟩ | ⟨-, -, heq⟩
    · rw [heq, content_cons_of_not_blank (not_blank_of_isDigit hdigit), ih, List.cons_append]
    · rw [heq, content_cons_of_blank hblank, ih]
    · rw [heq, List.nil_append]

theorem takeWhile_content_leadingDigits (line : List Char) :
    (content (leadingDigits line).2).takeWhile Char.isDigit = [] := by
  have hfst := leadingDigits_fst line
  have hall : ∀ c ∈ (leadingDigits line).1, c.isDigit = true := by
    rw [hfst]
    exact fun c hc => List.all_eq_true.mp List.all_takeWhile c hc
  rw [content_eq_leadingDigits, List.takeWhile_append_of_pos hall] at hfst
  exact List.self_eq_append_right.mp hfst

theorem leadingDigits_of_no_digit {line : List Char}
    (h : (content line).takeWhile Char.isDigit = []) : leadingDigits line = ([], line) := by
  rw [← leadingDigits_fst] at h
  cases line with
  | nil => rfl
  | cons c rest =>
    rcases leadingDigits_cons_cases c rest with ⟨-, heq⟩ | ⟨-, hne, heq⟩ | ⟨-, -, heq⟩
    · rw [heq] at h
      contradiction
    · exact absurd (heq ▸ h) hne
    · exact heq

theorem leadingDigits_append {digits rest : List Char} (h : ∀ c ∈ digits, c.isDigit = true)
    (hne : digits ≠ []) (hrest : (content rest).takeWhile Char.isDigit = []) :
    leadingDigits (digits ++ rest) = (digits, rest) := by
  induction digits with
  | nil => exact absurd rfl hne
  | cons c digits ih =>
    rw [List.cons_append, leadingDigits, if_pos (h c List.mem_cons_self)]
    cases digits with
    | nil => rw [List.nil_append, leadingDigits_of_no_digit hrest]
    | cons d digits => rw [ih (fun e he => h e (List.mem_cons_of_mem _ he)) (by simp)]

/-- A line is split after its digits, if they write a valid number. -/
theorem split_eq (line : List Char) :
    split line =
      match parse ((content line).takeWhile Char.isDigit) with
      | .ok number => (some number, (leadingDigits line).2)
      | .error _ => (none, line) := by
  rw [← leadingDigits_fst]
  rfl

theorem split_suffix (line : List Char) : (split line).2 <:+ line := by
  rw [split_eq]
  split
  · exact leadingDigits_snd_suffix line
  · exact List.suffix_rfl

/-- What follows a number starts with no digit. -/
theorem takeWhile_content_of_split {line rest : List Char} {number : LineNumber}
    (h : split line = (some number, rest)) : (content rest).takeWhile Char.isDigit = [] := by
  rw [split_eq] at h
  split at h
  · cases h
    exact takeWhile_content_leadingDigits line
  · cases h

theorem eq_of_split {line rest : List Char} (h : split line = (none, rest)) : rest = line := by
  rw [split_eq] at h
  split at h
  · cases h
  · exact (congrArg Prod.snd h).symm

/-- Whether there is a number depends on the digits in front of the content. -/
theorem split_eq_none {line line' rest : List Char}
    (hdigits : (content line').takeWhile Char.isDigit = (content line).takeWhile Char.isDigit)
    (h : split line = (none, rest)) : split line' = (none, line') := by
  rw [split_eq] at h ⊢
  rw [hdigits]
  split at h
  next => cases h
  next => rfl

/-! ### Trimming -/

section
variable {line body blanks : List Char}

theorem leadingDigits_append_blanks (h : ∀ c ∈ blanks, isBlank c = true) (line : List Char) :
    leadingDigits (line ++ blanks) = ((leadingDigits line).1, (leadingDigits line).2 ++ blanks) := by
  induction line with
  | nil =>
    apply leadingDigits_of_no_digit
    rw [List.nil_append, content_eq_nil_iff.mpr h]
    rfl
  | cons c rest ih =>
    rw [List.cons_append, leadingDigits, leadingDigits, ih]
    cases leadingDigits rest with
    | mk digits after =>
      by_cases hdigit : c.isDigit = true
      · rw [if_pos hdigit, if_pos hdigit]
      rw [if_neg hdigit, if_neg hdigit]
      by_cases hblank : isBlank c = true
      · rw [if_pos hblank, if_pos hblank]
        cases digits <;> rfl
      · rw [if_neg hblank, if_neg hblank]
        rfl

theorem leadingDigits_blanks_append (h : ∀ c ∈ blanks, isBlank c = true)
    (hdigits : (leadingDigits line).1 ≠ []) :
    leadingDigits (blanks ++ line) = leadingDigits line := by
  induction blanks with
  | nil => rfl
  | cons c blanks ih =>
    obtain ⟨hblank, hblanks⟩ := List.forall_mem_cons.mp h
    have ih := ih hblanks
    rw [List.cons_append]
    rcases leadingDigits_cons_cases c (blanks ++ line) with
      ⟨hdigit, -⟩ | ⟨-, -, heq⟩ | ⟨-, hrest, -⟩
    · rw [not_blank_of_isDigit hdigit] at hblank
      contradiction
    · exact heq.trans ih
    · exact absurd (ih ▸ hrest hblank) hdigits

/-- Blanks around a line change neither its number nor what follows the number, blanks apart. -/
theorem split_trim {number : Option LineNumber} (h : split line = (number, body)) :
    ∃ body', split (trim line) = (number, body') ∧ trim body' = trim body := by
  cases number with
  | none =>
    refine ⟨trim line, split_eq_none ?_ h, ?_⟩
    · rw [content_trim]
    · rw [trim_trim, eq_of_split h]
  | some number =>
    obtain ⟨before, hbefore, hleft⟩ := exists_trimLeft line
    obtain ⟨after, hafter, hright⟩ := exists_trimRight (trimLeft line)
    have hcut : before ++ (trim line ++ after) = line := by
      rw [trim, ← hright, ← hleft]
    rw [split_eq] at h ⊢
    rw [content_trim]
    split at h
    next heq =>
      cases h
      refine ⟨_, rfl, ?_⟩
      have hdigits : (leadingDigits (trim line ++ after)).1 ≠ [] := by
        intro hnil
        rw [leadingDigits_fst, content_append, content_trim, content_eq_nil_iff.mpr hafter,
          List.append_nil] at hnil
        rw [hnil] at heq
        contradiction
      rw [← trim_append_of_blank hafter]
      refine congrArg trim ?_
      conv => rhs; rw [← hcut, leadingDigits_blanks_append hbefore hdigits]
      rw [leadingDigits_append_blanks hafter]
    next => cases h

end

/-! ### Numbers in decimal -/

theorem isDigit_of_mem_text (number : LineNumber) : ∀ c ∈ number.text, c.isDigit = true :=
  fun _ hc => Nat.isDigit_of_mem_toDigits (by decide) (by decide) hc

theorem not_blank_of_mem_text (number : LineNumber) : ∀ c ∈ number.text, isBlank c = false :=
  fun c hc => not_blank_of_isDigit (number.isDigit_of_mem_text c hc)

theorem text_ne_nil (number : LineNumber) : number.text ≠ [] :=
  Nat.toDigits_ne_nil

theorem decimalValue_text (number : LineNumber) : decimalValue number.text = number.value :=
  Nat.ofDigitChars_ten_toDigits

theorem ofNat?_eq_some_iff {n : Nat} {number : LineNumber} :
    ofNat? n = some number ↔ n = number.value := by
  rw [ofNat?]
  constructor
  · intro h
    split at h
    · exact congrArg value (Option.some.inj h)
    · contradiction
  · rintro rfl
    rw [dif_pos ⟨number.pos, number.le_max⟩]

/-- Digits are read as the number that they write, if a line may carry it. -/
theorem parse_eq_ok_iff {digits : List Char} {number : LineNumber}
    (h : ∀ c ∈ digits, c.isDigit = true) :
    parse digits = .ok number ↔ digits ≠ [] ∧ decimalValue digits = number.value := by
  have hsign : digits.head? ≠ some '+' := by
    intro hhead
    have := h '+' (List.mem_of_head? hhead)
    contradiction
  have hall : digits.all Char.isDigit = true := List.all_eq_true.mpr h
  rw [parse, if_neg hsign, ← ofNat?_eq_some_iff]
  cases digits with
  | nil => simp
  | cons c digits =>
    rw [if_pos ⟨by simp, hall⟩]
    cases ofNat? (decimalValue (c :: digits)) with
    | none => simp
    | some found => simp

/-- A number in decimal is read as itself. -/
theorem parse_text (number : LineNumber) : parse number.text = .ok number :=
  (parse_eq_ok_iff (isDigit_of_mem_text number)).mpr ⟨text_ne_nil number, decimalValue_text number⟩

/-- The number of a line is the one that the digits in front of its content write. -/
theorem split_fst_eq_some_iff {line : List Char} {number : LineNumber} :
    (split line).1 = some number ↔ (content line).takeWhile Char.isDigit ≠ [] ∧
      decimalValue ((content line).takeWhile Char.isDigit) = number.value := by
  have hdigits : ∀ c ∈ (content line).takeWhile Char.isDigit, c.isDigit = true := fun c hc =>
    List.all_eq_true.mp List.all_takeWhile c hc
  rw [split_eq, ← parse_eq_ok_iff hdigits]
  cases parse ((content line).takeWhile Char.isDigit) with
  | ok found => simp
  | error => simp

theorem split_fst_eq_none_iff {line : List Char} :
    (split line).1 = none ↔ (content line).takeWhile Char.isDigit = [] ∨
      decimalValue ((content line).takeWhile Char.isDigit) = 0 ∨
      65535 < decimalValue ((content line).takeWhile Char.isDigit) := by
  rw [Option.eq_none_iff_forall_ne_some]
  simp only [ne_eq, split_fst_eq_some_iff]
  constructor
  · intro h
    refine Decidable.or_iff_not_imp_left.mpr fun hne => ?_
    have hout : ¬ (1 ≤ decimalValue ((content line).takeWhile Char.isDigit) ∧
        decimalValue ((content line).takeWhile Char.isDigit) ≤ 65535) := fun hin =>
      h ⟨_, hin.1, hin.2⟩ ⟨hne, rfl⟩
    omega
  · rintro h number ⟨hne, hvalue⟩
    have := number.pos
    have := number.le_max
    rcases h with hnil | h | h
    · exact hne hnil
    · omega
    · omega

/-- A number in front of a text that starts with no digit is read back. -/
theorem split_append (number : LineNumber) {rest : List Char}
    (h : (content rest).takeWhile Char.isDigit = []) :
    split (number.text ++ rest) = (some number, rest) := by
  have hdigits := leadingDigits_append (isDigit_of_mem_text number) (text_ne_nil number) h
  rw [split_eq, ← leadingDigits_fst, hdigits, parse_text]

end PocketBasic.LineNumber
