import Mathlib.Data.Nat.Digits.Defs
import PocketBasic.Proofs.LineNumber.Split

/-! What the front of a line says about its number. A line number is what the digits write that
stand in the digits, spaces and tabs at the front of the line (`lead`), each digit counted by its
place (`placeValue`), and what is left of the line starts after the last of them
(`exists_lead_eq`). The number may be read into a 16-bit word from the first digit on: a word that
overflows never gets back to a number that a line may carry (`word?_eq_some_iff`). -/

namespace PocketBasic.LineNumber

open Text

/-- The longest front of a line that holds digits, spaces and tabs only. -/
def lead (line : List Char) : List Char :=
  line.takeWhile fun c => c.isDigit || c == ' ' || c == '\t'

/-- The number that digits write: the last digit counts ones, the one before it tens, and so on. -/
def placeValue (digits : List Char) : Nat :=
  Nat.ofDigits 10 (digits.reverse.map digitValue)

/-- A digit put behind a number in a 16-bit word, if neither the multiplication nor the addition
overflows the word. -/
def appendDigit? (word : UInt16) (digit : Char) : Option UInt16 :=
  if 10 * word.toNat < UInt16.size then
    let tens := 10 * word
    if tens.toNat + digitValue digit < UInt16.size then some (tens + .ofNat (digitValue digit))
    else none
  else none

/-- The number that digits write, read into a 16-bit word from the first digit on. Nothing is read
once the word overflows. -/
def word? (digits : List Char) : Option UInt16 :=
  digits.foldlM appendDigit? 0

variable {line before blanks rest digits : List Char} {c digit : Char} {number : LineNumber}

/-! ### The digits in front -/

theorem lead_cons (c : Char) (rest : List Char) :
    lead (c :: rest) = if c.isDigit || isBlank c then c :: lead rest else [] := by
  rw [lead, List.takeWhile_cons, Bool.or_assoc]
  rfl

/-- The digits at the front of the content are those at the front of the line. -/
theorem filter_lead (line : List Char) :
    (lead line).filter Char.isDigit = (content line).takeWhile Char.isDigit := by
  induction line with
  | nil => rfl
  | cons c rest ih =>
    rw [lead_cons]
    cases hblank : isBlank c with
    | true =>
      have hdigit : ¬ c.isDigit = true := fun hdigit => by
        rw [not_blank_of_isDigit hdigit] at hblank
        contradiction
      rw [Bool.or_true, if_pos rfl, List.filter_cons_of_neg hdigit, ih,
        content_cons_of_blank hblank]
    | false =>
      rw [Bool.or_false, content_cons_of_not_blank hblank, List.takeWhile_cons]
      split
      next hdigit => rw [List.filter_cons_of_pos hdigit, ih]
      next => rfl

theorem filter_lead_eq_nil_iff :
    (lead line).filter Char.isDigit = [] ↔ ∀ c ∈ lead line, c.isDigit = false := by
  simp [List.filter_eq_nil_iff]

/-- The first character is the last digit that is read, or it is read over to a later one. -/
theorem leadingDigits_snd_cons_cases (h : (leadingDigits (c :: rest)).1 ≠ []) :
    (c.isDigit = true ∧ (leadingDigits rest).1 = [] ∧ (leadingDigits (c :: rest)).2 = rest) ∨
    ((c.isDigit || isBlank c) = true ∧ (leadingDigits rest).1 ≠ [] ∧
      (leadingDigits (c :: rest)).2 = (leadingDigits rest).2) := by
  rcases leadingDigits_cons_cases c rest with ⟨hdigit, heq⟩ | ⟨hblank, hne, heq⟩ | ⟨-, -, heq⟩
  · by_cases hrest : (leadingDigits rest).1 = []
    · have hall : leadingDigits rest = ([], rest) :=
        leadingDigits_of_no_digit (by rw [← leadingDigits_fst, hrest])
      exact .inl ⟨hdigit, hrest, by rw [heq, hall]⟩
    · exact .inr ⟨by rw [hdigit, Bool.true_or], hrest, by rw [heq]⟩
  · exact .inr ⟨by rw [hblank, Bool.or_true], hne, by rw [heq]⟩
  · rw [heq] at h
    contradiction

/-- What is left of a line starts after the last digit of its front. -/
theorem exists_lead_eq (h : (leadingDigits line).1 ≠ []) :
    ∃ before digit blanks, lead line = before ++ digit :: blanks ∧ digit.isDigit = true ∧
      (∀ c ∈ blanks, c.isDigit = false) ∧ line = before ++ digit :: (leadingDigits line).2 := by
  induction line with
  | nil => exact absurd rfl h
  | cons c rest ih =>
    rcases leadingDigits_snd_cons_cases h with ⟨hdigit, hnil, hsnd⟩ | ⟨hc, hne, hsnd⟩
    · refine ⟨[], c, lead rest, ?_, hdigit, ?_, by rw [hsnd, List.nil_append]⟩
      · rw [lead_cons, if_pos (by rw [hdigit, Bool.true_or]), List.nil_append]
      · rw [← filter_lead_eq_nil_iff, filter_lead, ← leadingDigits_fst, hnil]
    · obtain ⟨before, digit, blanks, hlead, hdigit, hblanks, hline⟩ := ih hne
      refine ⟨c :: before, digit, blanks, ?_, hdigit, hblanks, ?_⟩
      · rw [lead_cons, if_pos hc, hlead, List.cons_append]
      · rw [hsnd, List.cons_append, ← hline]

/-- A text has one last digit. -/
theorem eq_of_last_digit {before' blanks' : List Char} {digit' : Char}
    (h : before ++ digit :: blanks = before' ++ digit' :: blanks') (hdigit : digit.isDigit = true)
    (hdigit' : digit'.isDigit = true) (hblanks : ∀ c ∈ blanks, c.isDigit = false)
    (hblanks' : ∀ c ∈ blanks', c.isDigit = false) : before = before' ∧ digit = digit' := by
  have last {between blanks rest : List Char} {c digit : Char} (hdigit : digit.isDigit = true)
      (hblanks : ∀ c ∈ blanks, c.isDigit = false)
      (h : c :: blanks = between ++ digit :: rest) : between = [] ∧ c = digit := by
    cases between with
    | nil => exact ⟨rfl, (List.cons.inj h).1⟩
    | cons d between =>
      have hmem : digit ∈ blanks := by
        rw [(List.cons.inj h).2]
        simp
      rw [hblanks digit hmem] at hdigit
      contradiction
  rcases List.append_eq_append_iff.mp h with ⟨between, rfl, heq⟩ | ⟨between, rfl, heq⟩
  · obtain ⟨rfl, rfl⟩ := last hdigit' hblanks heq
    exact ⟨(List.append_nil _).symm, rfl⟩
  · obtain ⟨rfl, rfl⟩ := last hdigit hblanks' heq
    exact ⟨List.append_nil _, rfl⟩

/-! ### The number that digits write -/

theorem placeValue_eq (digits : List Char) : placeValue digits = decimalValue digits := by
  rw [placeValue, Nat.ofDigits_eq_foldr, List.foldr_map, List.foldr_reverse, decimalValue]
  simp only [Nat.cast_id, Nat.add_comm]

/-- A digit fits behind a number if and only if the number that they write fits into a word. -/
theorem appendDigit?_eq_some_iff {word next : UInt16} :
    appendDigit? word digit = some next ↔ 10 * word.toNat + digitValue digit = next.toNat := by
  have hnext := next.toNat_lt
  have tens (h : 10 * word.toNat < UInt16.size) : (10 * word).toNat = 10 * word.toNat := by
    rw [UInt16.toNat_mul]
    exact Nat.mod_eq_of_lt h
  have sum (h : 10 * word.toNat + digitValue digit < UInt16.size) :
      (10 * word + .ofNat (digitValue digit)).toNat = 10 * word.toNat + digitValue digit := by
    rw [UInt16.toNat_add, tens (Nat.lt_of_le_of_lt (Nat.le_add_right ..) h), UInt16.toNat_ofNat']
    have hdigit : digitValue digit < 2 ^ 16 := Nat.lt_of_le_of_lt (Nat.le_add_left ..) h
    rw [Nat.mod_eq_of_lt hdigit, Nat.mod_eq_of_lt h]
  rw [appendDigit?]
  by_cases hfits : 10 * word.toNat + digitValue digit < UInt16.size
  · have htens : 10 * word.toNat < UInt16.size := Nat.lt_of_le_of_lt (Nat.le_add_right ..) hfits
    simp only [if_pos htens, tens htens, if_pos hfits, Option.some_inj, ← UInt16.toNat_inj,
      sum hfits]
  · refine iff_of_false ?_ fun heq => hfits (heq ▸ hnext)
    split
    next htens =>
      simp only [tens htens, if_neg hfits]
      exact nofun
    next => exact nofun

theorem le_foldl_digits (digits : List Char) (n : Nat) :
    n ≤ digits.foldl (fun n digit => 10 * n + digitValue digit) n := by
  induction digits generalizing n with
  | nil => exact Nat.le_refl n
  | cons digit digits ih =>
    have := ih (10 * n + digitValue digit)
    rw [List.foldl_cons]
    omega

/-- Reading on from a word reads the number, if it fits. -/
theorem foldlM_appendDigit?_eq_some_iff {word next : UInt16} :
    digits.foldlM appendDigit? word = some next ↔
      digits.foldl (fun n digit => 10 * n + digitValue digit) word.toNat = next.toNat := by
  induction digits generalizing word with
  | nil => simp [UInt16.toNat_inj]
  | cons digit digits ih =>
    rw [List.foldlM_cons, List.foldl_cons, Option.bind_eq_bind]
    cases hstep : appendDigit? word digit with
    | some mid => rw [Option.bind_some, ih, appendDigit?_eq_some_iff.mp hstep]
    | none =>
      -- the digits to come only make the number greater
      refine iff_of_false nofun fun heq => ?_
      have hle := le_foldl_digits digits (10 * word.toNat + digitValue digit)
      have hlt : 10 * word.toNat + digitValue digit < UInt16.size :=
        Nat.lt_of_le_of_lt (heq ▸ hle) next.toNat_lt
      have hfits := appendDigit?_eq_some_iff.mpr (UInt16.toNat_ofNat_of_lt hlt).symm
      rw [hstep] at hfits
      contradiction

/-- A word holds the number that digits write, and there is none if the number does not fit. -/
theorem word?_eq_some_iff {word : UInt16} :
    word? digits = some word ↔ placeValue digits = word.toNat := by
  rw [placeValue_eq]
  exact foldlM_appendDigit?_eq_some_iff

/-- Digits are read as the number that is found in the word, unless that is zero. -/
theorem parse_eq_ok_iff_word? (hne : digits ≠ []) (hdigits : ∀ c ∈ digits, c.isDigit = true) :
    parse digits = .ok number ↔ (word? digits).map UInt16.toNat = some number.value := by
  rw [parse_eq_ok_iff hdigits, and_iff_right hne, ← placeValue_eq, Option.map_eq_some_iff]
  constructor
  · intro hvalue
    have hlt : number.value < UInt16.size := Nat.lt_succ_of_le number.le_max
    have hword := UInt16.toNat_ofNat_of_lt hlt
    exact ⟨.ofNat number.value, word?_eq_some_iff.mpr (hvalue.trans hword.symm), hword⟩
  · rintro ⟨word, hword, hvalue⟩
    rw [word?_eq_some_iff.mp hword, hvalue]

theorem isDigit_of_parse {text : List Char} (h : parse text = .ok number) :
    ∀ c ∈ if text.head? = some '+' then text.tail else text, c.isDigit = true := by
  rw [parse] at h
  generalize (if text.head? = some '+' then text.tail else text) = digits at h ⊢
  split at h
  next hok => exact List.all_eq_true.mp hok.2
  next => contradiction

/-- What is read as a number is one plus sign or none, and digits that write the number. -/
theorem parse_eq_ok_iff_exists {text : List Char} :
    parse text = .ok number ↔
      ∃ sign digits, text = sign ++ digits ∧ (sign = [] ∨ sign = ['+']) ∧ digits ≠ [] ∧
        (∀ c ∈ digits, c.isDigit = true) ∧ placeValue digits = number.value := by
  have signed (digits : List Char) (hdigits : ∀ c ∈ digits, c.isDigit = true) :
      parse ('+' :: digits) = parse digits := by
    have hsign : digits.head? ≠ some '+' := fun hhead => by
      have := hdigits '+' (List.mem_of_head? hhead)
      contradiction
    rw [parse, parse, if_neg hsign]
    rfl
  constructor
  · intro h
    have hdigits := isDigit_of_parse h
    by_cases hhead : text.head? = some '+'
    · obtain ⟨digits, rfl⟩ := List.head?_eq_some_iff.mp hhead
      rw [if_pos hhead, List.tail_cons] at hdigits
      rw [signed digits hdigits, parse_eq_ok_iff hdigits, ← placeValue_eq] at h
      exact ⟨['+'], digits, rfl, .inr rfl, h.1, hdigits, h.2⟩
    · rw [if_neg hhead] at hdigits
      rw [parse_eq_ok_iff hdigits, ← placeValue_eq] at h
      exact ⟨[], text, rfl, .inl rfl, h.1, hdigits, h.2⟩
  · rintro ⟨sign, digits, rfl, hsign, hne, hdigits, hvalue⟩
    have hparse : parse digits = .ok number :=
      (parse_eq_ok_iff hdigits).mpr ⟨hne, placeValue_eq digits ▸ hvalue⟩
    rcases hsign with rfl | rfl
    · exact hparse
    · exact (signed digits hdigits).trans hparse

/-! ### Taking the number off -/

theorem split_eq_some_iff :
    split line = (some number, rest) ↔
      placeValue ((lead line).filter Char.isDigit) = number.value ∧
        ∃ before digit blanks, lead line = before ++ digit :: blanks ∧ digit.isDigit = true ∧
          (∀ c ∈ blanks, c.isDigit = false) ∧ line = before ++ digit :: rest := by
  have hdigits : ∀ c ∈ (leadingDigits line).1, c.isDigit = true := by
    rw [leadingDigits_fst, ← filter_lead]
    exact fun c hc => (List.mem_filter.mp hc).2
  rw [split_eq, filter_lead, ← leadingDigits_fst, placeValue_eq]
  constructor
  · intro h
    split at h
    next found hparse =>
      cases h
      obtain ⟨hne, hvalue⟩ := (parse_eq_ok_iff hdigits).mp hparse
      exact ⟨hvalue, exists_lead_eq hne⟩
    next => cases h
  · rintro ⟨hvalue, before, digit, blanks, hlead, hdigit, hblanks, hline⟩
    have hne : (leadingDigits line).1 ≠ [] := by
      rw [leadingDigits_fst, ← filter_lead, hlead]
      simp [hdigit]
    rw [(parse_eq_ok_iff hdigits).mpr ⟨hne, hvalue⟩]
    obtain ⟨before', digit', blanks', hlead', hdigit', hblanks', hline'⟩ := exists_lead_eq hne
    obtain ⟨rfl, rfl⟩ :=
      eq_of_last_digit (hlead.symm.trans hlead') hdigit hdigit' hblanks hblanks'
    have hrest := List.append_cancel_left (hline'.symm.trans hline)
    rw [(List.cons.inj hrest).2]

theorem split_eq_none_iff :
    split line = (none, rest) ↔ rest = line ∧ ((∀ c ∈ lead line, c.isDigit = false) ∨
      placeValue ((lead line).filter Char.isDigit) = 0 ∨
      65535 < placeValue ((lead line).filter Char.isDigit)) := by
  rw [← filter_lead_eq_nil_iff, filter_lead, placeValue_eq, ← split_fst_eq_none_iff]
  constructor
  · exact fun h => ⟨eq_of_split h, congrArg Prod.fst h⟩
  · rintro ⟨rfl, hnone⟩
    have heq : split rest = (none, (split rest).2) := Prod.ext hnone rfl
    rw [heq, eq_of_split heq]

/-- The number of a line and what is left of the line. A line has a number if there is a digit in
the digits, spaces and tabs at its front and these digits write a number from 1 to 65535, however
many they are; what is left starts right after the last of them. Every other line has no number and
is left whole. A number by itself may have one plus sign in front. Reading it into a 16-bit word,
digit by digit and no further than the word can hold, gives the same numbers. -/
theorem split_parse_iff (line : List Char) :
    let digits := (lead line).filter Char.isDigit
    (∀ number rest, split line = (some number, rest) ↔
      placeValue digits = number.value ∧
        ∃ before digit blanks, lead line = before ++ digit :: blanks ∧ digit.isDigit = true ∧
          (∀ c ∈ blanks, c.isDigit = false) ∧ line = before ++ digit :: rest) ∧
    (∀ rest, split line = (none, rest) ↔ rest = line ∧
      ((∀ c ∈ lead line, c.isDigit = false) ∨ placeValue digits = 0 ∨
        65535 < placeValue digits)) ∧
    (∀ text number, parse text = .ok number ↔
      ∃ sign digits, text = sign ++ digits ∧ (sign = [] ∨ sign = ['+']) ∧ digits ≠ [] ∧
        (∀ c ∈ digits, c.isDigit = true) ∧ placeValue digits = number.value) ∧
    ∀ digits number, digits ≠ [] → (∀ c ∈ digits, c.isDigit = true) →
      (parse digits = .ok number ↔ (word? digits).map UInt16.toNat = some number.value) := by
  intro digits
  exact ⟨fun _ _ => split_eq_some_iff, fun _ => split_eq_none_iff,
    fun _ _ => parse_eq_ok_iff_exists, fun _ _ => parse_eq_ok_iff_word?⟩

end PocketBasic.LineNumber
