import Mathlib.Data.List.Infix
import PocketBasic.Keyword.Table
import PocketBasic.Lexeme.Basic
import PocketBasic.Proofs.Text.Ascii

/-! Regular keywords: the shape that the manuals give to names and abbreviations. A name is written
in capitals with at most one `$` or `#` behind them, and starts with its abbreviation. All that a
scan needs to know about the spellings of a keyword follows from this shape: they are distinguished
by what stands behind the abbreviation (`mem_spellings_iff`), a period can only end one
(`Regular.period_last`), none of them runs into a `REM` (`Regular.not_remWord_inside`), and none of
them stands inside of another one (`Regular.not_infix_tail`). -/

namespace PocketBasic

/-- Whether a character may be part of a name. -/
def isNameChar (c : Char) : Bool :=
  c.isUpper || c == '$' || c == '#'

/-- Whether a character may be part of a spelling. -/
def isSpellingChar (c : Char) : Bool :=
  isNameChar c || c == '.'

theorem isSpellingChar_of_isNameChar {c : Char} (h : isNameChar c = true) :
    isSpellingChar c = true := by
  simp [isSpellingChar, h]

/-- A word in capitals that stands in a text does not reach into the signs at its end. -/
theorem infix_of_isUpper {word text signs : List Char} (hword : ∀ c ∈ word, c.isUpper = true)
    (hsigns : ∀ c ∈ signs, c.isUpper = false) (h : word <:+: text ++ signs) : word <:+: text := by
  obtain ⟨before, after, heq⟩ := h
  rcases List.append_eq_append_iff.mp heq with ⟨more, rfl, _⟩ | ⟨beyond, hbeyond, rfl⟩
  · exact ⟨before, more, rfl⟩
  · rcases List.eq_nil_or_concat beyond with rfl | ⟨beyond, c, rfl⟩
    · rw [List.append_nil] at hbeyond
      exact ⟨before, [], by rw [List.append_nil, hbeyond]⟩
    · rw [List.concat_eq_append] at hbeyond hsigns
      rcases List.eq_nil_or_concat word with rfl | ⟨word, d, rfl⟩
      · exact ⟨[], text, rfl⟩
      · rw [List.concat_eq_append, ← List.append_assoc, ← List.append_assoc] at hbeyond
        have hlast := List.append_inj_right' hbeyond rfl
        simp only [List.cons.injEq, and_true] at hlast
        subst hlast
        have upper := hword d (by simp)
        rw [hsigns d (by simp)] at upper
        contradiction

theorem le_of_isUpper {c : Char} (h : c.isUpper = true) : 65 ≤ c.toNat ∧ c.toNat ≤ 90 := by
  have hbounds : decide (c.val ≥ 65 ∧ c.val ≤ 90) = true := h
  simpa [UInt32.le_iff_toNat_le] using hbounds

theorem le_of_isDigit {c : Char} (h : c.isDigit = true) : 48 ≤ c.toNat ∧ c.toNat ≤ 57 := by
  simpa [Char.isDigit, UInt32.le_iff_toNat_le] using h

theorem isDigit_of_isUpper {c : Char} (h : c.isUpper = true) : c.isDigit = false := by
  rw [Bool.eq_false_iff]
  intro hdigit
  have hlow := (le_of_isUpper h).1
  have hhigh := (le_of_isDigit hdigit).2
  omega

theorem not_isUpper_of_isDigit {c : Char} (h : c.isDigit = true) : c.isUpper = false := by
  rw [Bool.eq_false_iff]
  intro hupper
  rw [isDigit_of_isUpper hupper] at h
  contradiction

theorem ne_of_isUpper {c d : Char} (hc : c.isUpper = true) (hd : d.isUpper = false) : c ≠ d := by
  rintro rfl
  rw [hc] at hd
  contradiction

theorem toNat_le_of_isSpellingChar {c : Char} (h : isSpellingChar c = true) : c.toNat ≤ 90 := by
  simp only [isSpellingChar, isNameChar, Bool.or_eq_true, beq_iff_eq] at h
  rcases h with ((h | rfl) | rfl) | rfl
  · exact (le_of_isUpper h).2
  all_goals decide

/-- The characters of spellings are fixed by upper case. -/
theorem upperChar_of_isSpellingChar {c : Char} (h : isSpellingChar c = true) :
    Text.upperChar c = [c] := by
  have hle := toNat_le_of_isSpellingChar h
  have upper : c.toUpper = c := by
    refine dif_neg ?_
    rintro ⟨hlower, _⟩
    have : 97 ≤ c.toNat := UInt32.le_iff_toNat_le.mp hlower
    omega
  rw [Text.upperChar, if_pos (by omega), upper]

theorem upper_of_isSpellingChar {text : List Char} (h : ∀ c ∈ text, isSpellingChar c = true) :
    Text.upper text = text := by
  induction text with
  | nil => rfl
  | cons c text ih =>
    rw [Text.upper_cons, upperChar_of_isSpellingChar (h c List.mem_cons_self),
      ih fun d hd => h d (List.mem_cons_of_mem _ hd), List.singleton_append]

/-- Characters of spellings take one byte. -/
theorem byteLength_of_isSpellingChar {text : List Char}
    (h : ∀ c ∈ text, isSpellingChar c = true) : Text.byteLength text = text.length := by
  refine Text.IsAscii.byteLength_eq fun c hc => ?_
  have := toNat_le_of_isSpellingChar (h c hc)
  omega

namespace Keyword

/-- The shape of a keyword of the manuals. -/
structure Regular (keyword : Keyword) : Prop where
  two_le_length : 2 ≤ keyword.name.length
  nameChars : ∀ c ∈ keyword.name, isNameChar c = true
  isUpper_front : ∀ c ∈ keyword.name.dropLast, c.isUpper = true
  abbreviation_ne_nil : keyword.abbreviation ≠ []
  abbreviation_isPrefix : keyword.abbreviation <+: keyword.name
  isUpper_abbreviation : keyword.hasAbbreviation = true →
    ∀ c ∈ keyword.abbreviation, c.isUpper = true
  /-- A longer abbreviation stands in front of the name and nowhere else in it. -/
  abbreviation_once : 2 ≤ keyword.abbreviation.length →
    ¬ keyword.abbreviation <:+: keyword.name.tail
  remWord_not_inside : ¬ remWord <:+: keyword.name.tail
  remWord_isPrefix : remWord <+: keyword.name →
    keyword.name = remWord ∧ keyword.abbreviation = remWord

variable {keyword : Keyword}

theorem hasAbbreviation_iff :
    keyword.hasAbbreviation = true ↔ keyword.abbreviation ≠ keyword.name := by
  simp [hasAbbreviation]

theorem abbreviation_eq (h : keyword.hasAbbreviation = false) :
    keyword.abbreviation = keyword.name := by
  simpa [hasAbbreviation] using h

namespace Regular

theorem isSpellingChar_name (reg : keyword.Regular) :
    ∀ c ∈ keyword.name, isSpellingChar c = true :=
  fun c hc => isSpellingChar_of_isNameChar (reg.nameChars c hc)

/-- Names have no period. -/
theorem period_not_mem (reg : keyword.Regular) : '.' ∉ keyword.name :=
  fun hmem => absurd (reg.nameChars _ hmem) (by decide)

theorem isSpellingChar_abbreviation (reg : keyword.Regular) :
    ∀ c ∈ keyword.abbreviation, isSpellingChar c = true :=
  fun c hc => reg.isSpellingChar_name c (reg.abbreviation_isPrefix.subset hc)

/-- The spellings of a keyword: its name, and its abbreviation with a period, bare, or with the
`#` of the name and a period. -/
theorem mem_spellings_iff (reg : keyword.Regular) {text : List Char} :
    text ∈ keyword.spellings ↔ text = keyword.name ∨ keyword.hasAbbreviation = true ∧
      (text = keyword.abbreviation ++ ['.'] ∨
        2 ≤ keyword.abbreviation.length ∧ text = keyword.abbreviation ∨
        keyword.hasHash = true ∧ text = keyword.abbreviation ++ ['#', '.']) := by
  rw [spellings, upper_of_isSpellingChar reg.isSpellingChar_name,
    upper_of_isSpellingChar reg.isSpellingChar_abbreviation,
    byteLength_of_isSpellingChar reg.isSpellingChar_abbreviation]
  cases keyword.hasAbbreviation <;> cases keyword.hasHash <;>
    by_cases h : 2 ≤ keyword.abbreviation.length <;> simp [h]

theorem name_mem_spellings (reg : keyword.Regular) : keyword.name ∈ keyword.spellings :=
  reg.mem_spellings_iff.mpr (.inl rfl)

/-- Every spelling starts with the abbreviation. -/
theorem abbreviation_isPrefix_spelling (reg : keyword.Regular) {text : List Char}
    (h : text ∈ keyword.spellings) : keyword.abbreviation <+: text := by
  rcases reg.mem_spellings_iff.mp h with rfl | ⟨_, rfl | ⟨_, rfl⟩ | ⟨_, rfl⟩⟩
  · exact reg.abbreviation_isPrefix
  · exact List.prefix_append ..
  · exact List.prefix_rfl
  · exact List.prefix_append ..

theorem isSpellingChar_of_mem (reg : keyword.Regular) {text : List Char}
    (h : text ∈ keyword.spellings) : ∀ c ∈ text, isSpellingChar c = true := by
  have short := reg.isSpellingChar_abbreviation
  rcases reg.mem_spellings_iff.mp h with rfl | ⟨_, rfl | ⟨_, rfl⟩ | ⟨_, rfl⟩⟩
  · exact reg.isSpellingChar_name
  · simp only [List.mem_append, List.mem_singleton]
    rintro c (hc | rfl)
    exacts [short c hc, rfl]
  · exact short
  · simp only [List.mem_append, List.mem_cons, List.not_mem_nil, or_false]
    rintro c (hc | rfl | rfl)
    exacts [short c hc, rfl, rfl]

theorem two_le_length_of_mem (reg : keyword.Regular) {text : List Char}
    (h : text ∈ keyword.spellings) : 2 ≤ text.length := by
  have pos := List.length_pos_of_ne_nil reg.abbreviation_ne_nil
  rcases reg.mem_spellings_iff.mp h with rfl | ⟨_, rfl | ⟨hlen, rfl⟩ | ⟨_, rfl⟩⟩
  · exact reg.two_le_length
  · simpa using Nat.succ_le_of_lt pos
  · exact hlen
  · simp

/-- A spelling starts with a capital. -/
theorem exists_cons_of_mem (reg : keyword.Regular) {text : List Char}
    (h : text ∈ keyword.spellings) :
    ∃ c rest, text = c :: rest ∧ c.isUpper = true ∧ rest ≠ [] := by
  have hlen := reg.two_le_length_of_mem h
  obtain ⟨tail, rfl⟩ := reg.abbreviation_isPrefix_spelling h
  have hname := reg.abbreviation_isPrefix
  have hfront := reg.isUpper_front
  have htwo := reg.two_le_length
  cases habbr : keyword.abbreviation with
  | nil => exact absurd habbr reg.abbreviation_ne_nil
  | cons c rest =>
    rw [habbr] at hlen hname
    refine ⟨c, rest ++ tail, rfl, ?_, fun hnil => ?_⟩
    · obtain ⟨more, hmore⟩ := hname
      rw [← hmore] at hfront htwo
      apply hfront c
      cases hrest : rest ++ more with
      | nil => simp [hrest] at htwo
      | cons d others => simp [hrest]
    · simp [hnil] at hlen

theorem ne_nil_of_mem (reg : keyword.Regular) {text : List Char}
    (h : text ∈ keyword.spellings) : text ≠ [] := by
  obtain ⟨c, rest, rfl, _⟩ := reg.exists_cons_of_mem h
  exact List.cons_ne_nil c rest

/-- A period can only end a spelling. -/
theorem period_last (reg : keyword.Regular) {text : List Char}
    (h : text ∈ keyword.spellings) : '.' ∉ text.dropLast := by
  have short : '.' ∉ keyword.abbreviation := fun hmem =>
    reg.period_not_mem (reg.abbreviation_isPrefix.subset hmem)
  rcases reg.mem_spellings_iff.mp h with rfl | ⟨_, rfl | ⟨_, rfl⟩ | ⟨_, rfl⟩⟩
  · exact fun hmem => reg.period_not_mem (List.mem_of_mem_dropLast hmem)
  · rwa [List.dropLast_concat]
  · exact fun hmem => short (List.mem_of_mem_dropLast hmem)
  · rw [List.dropLast_append_of_ne_nil (by simp)]
    simpa using short

/-- A spelling other than the name adds a period to the abbreviation, or a hash and a period, or
nothing. -/
theorem exists_points (reg : keyword.Regular) {text : List Char}
    (h : text ∈ keyword.spellings) :
    text = keyword.name ∨ keyword.hasAbbreviation = true ∧
      ∃ points, (∀ c ∈ points, c = '.' ∨ c = '#') ∧ text = keyword.abbreviation ++ points := by
  rcases reg.mem_spellings_iff.mp h with rfl | ⟨has, rfl | ⟨_, rfl⟩ | ⟨_, rfl⟩⟩
  · exact .inl rfl
  · exact .inr ⟨has, ['.'], by decide, rfl⟩
  · exact .inr ⟨has, [], by simp, by simp⟩
  · exact .inr ⟨has, ['#', '.'], by decide, rfl⟩

/-- A spelling other than the name adds signs to the abbreviation. -/
theorem exists_signs (reg : keyword.Regular) {text : List Char}
    (h : text ∈ keyword.spellings) :
    text = keyword.name ∨ keyword.hasAbbreviation = true ∧
      ∃ signs, (∀ c ∈ signs, c.isUpper = false) ∧ text = keyword.abbreviation ++ signs := by
  refine (reg.exists_points h).imp_right ?_
  rintro ⟨has, points, hpoints, heq⟩
  refine ⟨has, points, fun c hc => ?_, heq⟩
  rcases hpoints c hc with rfl | rfl <;> rfl

/-- Only capitals stand in front of a capital of a spelling. -/
theorem isUpper_before (reg : keyword.Regular) {front back : List Char} {c : Char}
    (h : front ++ c :: back ∈ keyword.spellings) (hc : c.isUpper = true) :
    ∀ d ∈ front, d.isUpper = true := by
  intro d hd
  rcases reg.exists_signs h with hname | ⟨has, signs, hsigns, heq⟩
  · apply reg.isUpper_front d
    rw [← hname, List.dropLast_append_of_ne_nil (List.cons_ne_nil c back)]
    exact List.mem_append_left _ hd
  · rcases List.append_eq_append_iff.mp heq with ⟨beyond, habbreviation, -⟩ | ⟨beyond, -, hbehind⟩
    · exact reg.isUpper_abbreviation has d (by simp [habbreviation, hd])
    · rw [hsigns c (by simp [hbehind])] at hc
      contradiction

/-- No spelling runs into a `REM`. -/
theorem not_remWord_inside (reg : keyword.Regular) {text : List Char}
    (h : text ∈ keyword.spellings) : ¬ remWord <:+: text.tail := by
  rcases reg.exists_signs h with rfl | ⟨_, signs, hsigns, rfl⟩
  · exact reg.remWord_not_inside
  · intro hinside
    rw [List.tail_append_of_ne_nil reg.abbreviation_ne_nil] at hinside
    have within := infix_of_isUpper (by decide) hsigns hinside
    obtain ⟨more, hname⟩ := reg.abbreviation_isPrefix
    apply reg.remWord_not_inside
    rw [← hname, List.tail_append_of_ne_nil reg.abbreviation_ne_nil]
    exact within.trans (List.prefix_append ..).isInfix

/-- A spelling that starts with `REM` is this word, and the name of its keyword. -/
theorem eq_remWord_of_isPrefix (reg : keyword.Regular) {text : List Char}
    (h : text ∈ keyword.spellings) (hrem : remWord <+: text) :
    text = remWord ∧ keyword.name = remWord := by
  rcases reg.exists_signs h with rfl | ⟨has, signs, hsigns, rfl⟩
  · exact ⟨(reg.remWord_isPrefix hrem).1, (reg.remWord_isPrefix hrem).1⟩
  · have within := infix_of_isUpper (by decide) hsigns hrem.isInfix
    have hname := within.trans reg.abbreviation_isPrefix.isInfix
    have hnot := reg.remWord_not_inside
    have hfront := reg.remWord_isPrefix
    have hshort := hasAbbreviation_iff.mp has
    cases hcons : keyword.name with
    | nil => exact absurd reg.two_le_length (by simp [hcons])
    | cons c rest =>
      rw [hcons] at hname hnot hfront hshort
      rcases List.infix_cons_iff.mp hname with hname | hname
      · obtain ⟨hrem, habbr⟩ := hfront hname
        exact absurd (habbr.trans hrem.symm) hshort
      · exact absurd hname hnot

/-- The one spelling that holds a `REM` is this word. -/
theorem eq_remWord_of_isInfix (reg : keyword.Regular) {text : List Char}
    (h : text ∈ keyword.spellings) (hrem : remWord <:+: text) : text = remWord := by
  obtain ⟨c, rest, rfl, -⟩ := reg.exists_cons_of_mem h
  rcases List.infix_cons_iff.mp hrem with hpre | hinside
  · exact (reg.eq_remWord_of_isPrefix h hpre).1
  · exact absurd hinside (reg.not_remWord_inside h)

/-- No spelling stands in another spelling of the keyword other than in front of it. -/
theorem not_infix_tail (reg : keyword.Regular) {text other : List Char}
    (h : text ∈ keyword.spellings) (hother : other ∈ keyword.spellings) :
    ¬ other <:+: text.tail := by
  intro hinside
  have hshort := reg.abbreviation_isPrefix_spelling hother
  rcases reg.exists_signs h with rfl | ⟨has, signs, hsigns, rfl⟩
  · have notName {c : Char} (hc : c ∈ other) : isNameChar c = true :=
      reg.nameChars c (List.mem_of_mem_tail (hinside.subset hc))
    rcases reg.mem_spellings_iff.mp hother with rfl | ⟨_, rfl | ⟨hlen, rfl⟩ | ⟨_, rfl⟩⟩
    · have hle := hinside.length_le
      have := reg.two_le_length
      rw [List.length_tail] at hle
      omega
    · exact absurd (notName (c := '.') (by simp)) (by decide)
    · exact reg.abbreviation_once hlen hinside
    · exact absurd (notName (c := '.') (by simp)) (by decide)
  · have within := hshort.isInfix.trans hinside
    rw [List.tail_append_of_ne_nil reg.abbreviation_ne_nil] at within
    have hle := (infix_of_isUpper (reg.isUpper_abbreviation has) hsigns within).length_le
    have := List.length_pos_of_ne_nil reg.abbreviation_ne_nil
    rw [List.length_tail] at hle
    omega

end Regular

end Keyword

end PocketBasic
