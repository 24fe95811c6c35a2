import Mathlib.Data.List.Forall2
import PocketBasic.Listing.Compact
import PocketBasic.Proofs.Lexeme.Alike
import PocketBasic.Proofs.Lexeme.Shared

/-! Lexemes in their compact spelling. Up to the first keyword that is respelled the text stays the
same, and the keyword itself still starts with its abbreviation, so a lexeme in front of it sees
no difference where it looks (`Respelled.sameFront`, `Respelled.shared`). A spelling that ends in a
period does not look further at all (`bounded_period`), and most of the compact ones are such
(`Respelled.bounded`). -/

namespace PocketBasic.Lexeme

variable {table : Keyword.Table} {place : Place} {lexeme : Lexeme} {lexemes : List Lexeme}
  {keyword : Keyword} {text rest after : List Char}

/-- The lexeme in its compact spelling. -/
def compacted (table : Keyword.Table) (lexeme : Lexeme) : Lexeme where
  kind := lexeme.kind
  text := lexeme.compactForm table

@[simp] theorem written_compacted (table : Keyword.Table) (lexemes : List Lexeme) :
    written (lexemes.map (compacted table)) = lexemes.flatMap (compactForm table) := by
  rw [written, List.flatMap_map]
  rfl

theorem compactForm_of_none (h : lexeme.keyword? table = none) :
    lexeme.compactForm table = lexeme.text := by
  rw [compactForm, h, Option.elim_none]

theorem compactForm_of_some (h : lexeme.keyword? table = some keyword) :
    lexeme.compactForm table = keyword.compactForm := by
  rw [compactForm, h, Option.elim_some]

/-- The lexeme spells the keyword in another way than the compact one. -/
structure Respelled (table : Keyword.Table) (lexeme : Lexeme) (keyword : Keyword) : Prop where
  mem : keyword ∈ table.keywords
  found : lexeme.keyword? table = some keyword
  spelled : lexeme.text ∈ keyword.spellings
  ne : lexeme.text ≠ keyword.compactForm

theorem Opens.compactForm_eq_or (law : table.Lawful) (first : Opens table place lexeme rest) :
    lexeme.compactForm table = lexeme.text ∨ ∃ keyword, Respelled table lexeme keyword := by
  cases hfound : lexeme.keyword? table with
  | none => exact .inl (compactForm_of_none hfound)
  | some keyword =>
    obtain ⟨hk, hmem⟩ := first.keyword?_eq_some law hfound
    by_cases heq : lexeme.text = keyword.compactForm
    · exact .inl ((compactForm_of_some hfound).trans heq.symm)
    · exact .inr ⟨keyword, hk, hfound, hmem, heq⟩

namespace Respelled

theorem compactForm_eq (h : Respelled table lexeme keyword) :
    lexeme.compactForm table = keyword.compactForm :=
  compactForm_of_some h.found

theorem hasAbbreviation (terse : table.Terse) (h : Respelled table lexeme keyword) :
    keyword.hasAbbreviation = true := by
  rw [← Bool.not_eq_false]
  intro has
  apply h.ne
  rw [Keyword.compactForm_of_not has]
  exact (terse.regular h.mem).mem_spellings_of_not has h.spelled

theorem isRem_eq (terse : table.Terse) (h : Respelled table lexeme keyword) :
    lexeme.isRem = false := by
  rw [Bool.eq_false_iff]
  intro hisRem
  apply h.ne
  have hmem := h.spelled
  rw [(isRem_iff.mp hisRem).2] at hmem ⊢
  exact ((terse.regular h.mem).eq_remWord_of_mem hmem (terse.compactForm_mem h.mem)).symm

end Respelled

/-! ### In front of a respelled keyword -/

theorem exponentRun_spelling (law : table.Lawful) (hk : keyword ∈ table.keywords)
    (h : text ∈ keyword.spellings) (rest : List Char) : exponentRun (text ++ rest) = 0 := by
  have hspelling := (law.regular hk).isSpellingChar_of_mem h
  obtain ⟨c, others, rfl, -, hne⟩ := (law.regular hk).exists_cons_of_mem h
  obtain ⟨d, others, rfl⟩ := List.exists_cons_of_ne_nil hne
  by_cases hc : c = 'E'
  · subst hc
    have hd := hspelling d (by simp)
    have hplus : d ≠ '+' := by
      rintro rfl
      contradiction
    have hminus : d ≠ '-' := by
      rintro rfl
      contradiction
    have hdigit : d.isDigit = false := by
      simp only [isSpellingChar, isNameChar, Bool.or_eq_true, beq_iff_eq] at hd
      rcases hd with ((hd | rfl) | rfl) | rfl
      · exact isDigit_of_isUpper hd
      all_goals decide
    simp [exponentRun, signRun_cons_of_ne hplus hminus, digitRun, hdigit]
  · rw [List.cons_append, exponentRun_eq_zero_of_head (by simpa using hc)]

/-- The spellings of a keyword start with the same letter, and none of them is taken for an
exponent. -/
theorem sameFront_spelling (law : table.Lawful) (hk : keyword ∈ table.keywords) {text' : List Char}
    (h : text ∈ keyword.spellings) (h' : text' ∈ keyword.spellings)
    (front rest rest' : List Char) :
    SameFront (front ++ text ++ rest) (front ++ text' ++ rest') := by
  have reg := law.regular hk
  obtain ⟨c, others, rfl, hc, -⟩ := reg.exists_cons_of_mem h
  obtain ⟨c', others', rfl, -⟩ := reg.exists_cons_of_mem h'
  obtain rfl : c' = c := by
    have hshort := reg.abbreviation_isPrefix_spelling h
    have hshort' := reg.abbreviation_isPrefix_spelling h'
    obtain ⟨d, letters, hletters⟩ := List.exists_cons_of_ne_nil reg.abbreviation_ne_nil
    rw [hletters, List.cons_prefix_cons] at hshort hshort'
    rw [← hshort.1, ← hshort'.1]
  cases front with
  | nil => exact ⟨rfl, fun _ => exponentRun_spelling law hk h' rest'⟩
  | cons d front =>
    refine ⟨rfl, fun hzero => ?_⟩
    rw [← hzero, List.append_assoc, List.append_assoc]
    exact exponentRun_append_letter hc d front _ _

theorem Scans.opens_of_mem (scans : Scans table place lexemes) (h : lexeme ∈ lexemes) :
    ∃ place' rest, Opens table place' lexeme rest := by
  obtain ⟨before, after, rfl⟩ := List.append_of_mem h
  obtain ⟨place', first, -⟩ := scans.exists_cons
  exact ⟨place', written after, first⟩

namespace Respelled

variable {before : List Lexeme}

/-- A `REM` that starts in front of the keyword, or in its abbreviation, ends in these too. -/
private theorem remWord_isPrefix_drop (terse : table.Terse) (h : Respelled table lexeme keyword)
    (scans : Scans table place (before ++ lexeme :: lexemes)) {i : Nat}
    (hi : i < (written before ++ keyword.abbreviation).length)
    (hrem : remWord <+: (written before ++ (lexeme.text ++ written lexemes)).drop i) :
    remWord <+: (written before ++ keyword.abbreviation).drop i := by
  have reg := terse.regular h.mem
  have hshort := List.length_pos_of_ne_nil reg.abbreviation_ne_nil
  obtain ⟨points, hpoints⟩ := reg.abbreviation_isPrefix_spelling h.spelled
  rw [List.length_append] at hi
  by_cases hin : i < (written before).length
  · by_cases hends : i + 3 ≤ (written before).length + keyword.abbreviation.length
    · rw [← hpoints, List.append_assoc, ← List.append_assoc,
        List.drop_append_of_le_length (by rw [List.length_append]; omega)] at hrem
      refine List.prefix_of_prefix_length_le hrem (List.prefix_append ..) ?_
      rw [List.length_drop, List.length_append]
      exact Nat.le_sub_of_add_le (by rw [Nat.add_comm]; exact hends)
    -- The `R` would be the last letter in front of the keyword.
    · exfalso
      apply terse.not_em_of_append h.mem h.spelled (written lexemes)
      rcases List.eq_nil_or_concat (written before) with hnil | ⟨others, c, hlast⟩
      · simp [hnil] at hin
      · rw [List.concat_eq_append] at hlast
        rw [hlast, List.length_append, List.length_singleton] at hin hends
        obtain rfl : i = others.length := by omega
        rw [hlast, List.append_assoc, List.drop_left] at hrem
        exact (List.cons_prefix_cons.mp hrem).2
  · exfalso
    obtain ⟨place', first, -⟩ := scans.exists_cons
    have bounded := first.bounded terse.toLawful (.inl (kind_of_keyword? h.found))
      (h.isRem_eq terse)
    obtain ⟨j, rfl⟩ := Nat.exists_eq_add_of_le (Nat.le_of_not_lt hin)
    rw [List.drop_length_add_append] at hrem
    refine bounded.not_rem j ?_ hrem
    rw [← hpoints, List.length_append]
    omega

/-- The texts have the same lexemes in common, and the abbreviation of the keyword. -/
theorem shared (terse : table.Terse) (h : Respelled table lexeme keyword)
    (scans : Scans table place (before ++ lexeme :: lexemes)) (after : List Char) :
    Shared (written before ++ keyword.abbreviation) (written (before ++ lexeme :: lexemes))
      (written before ++ keyword.compactForm ++ after) := by
  have reg := terse.regular h.mem
  have hshort := List.length_pos_of_ne_nil reg.abbreviation_ne_nil
  have hright : written before ++ keyword.abbreviation <+:
      written before ++ keyword.compactForm ++ after := by
    obtain ⟨points', hpoints'⟩ := reg.abbreviation_isPrefix_spelling (terse.compactForm_mem h.mem)
    exact ⟨points' ++ after, by simp [← hpoints']⟩
  rw [written_append, written_cons]
  refine ⟨by simp [reg.abbreviation_ne_nil], ?_, hright,
    fun i hi hrem => h.remWord_isPrefix_drop terse scans hi hrem, fun hem => ?_⟩
  · obtain ⟨points, hpoints⟩ := reg.abbreviation_isPrefix_spelling h.spelled
    exact ⟨points ++ written lexemes, by simp [← hpoints]⟩
  · by_cases htwo : 2 ≤ (written before ++ keyword.abbreviation).length
    · exact List.prefix_of_prefix_length_le hem hright htwo
    · exfalso
      have hnil : written before = [] := by
        rw [List.length_append] at htwo
        exact List.length_eq_zero_iff.mp (by omega)
      rw [hnil] at hem
      exact terse.not_em_of_append h.mem (terse.compactForm_mem h.mem) after hem

/-- A lexeme that looks at the next character only sees the same. -/
theorem sameFront (terse : table.Terse) (h : Respelled table lexeme keyword)
    (before lexemes : List Lexeme) (after : List Char) :
    SameFront (written (before ++ lexeme :: lexemes))
      (written before ++ keyword.compactForm ++ after) := by
  rw [written_append, written_cons, ← List.append_assoc]
  exact sameFront_spelling terse.toLawful h.mem h.spelled (terse.compactForm_mem h.mem) ..

end Respelled

/-! ### Spellings that end in a period -/

/-- No `REM` starts in front of a character that is not one of its letters. -/
theorem not_remWord_drop {front : List Char} {c : Char} (hc : c ∉ remWord)
    (hfront : ¬ remWord <:+: front) (rest : List Char) :
    ∀ i < (front ++ [c]).length, ¬ remWord <+: (front ++ [c] ++ rest).drop i := by
  intro i hi hrem
  rw [List.length_append, List.length_singleton] at hi
  rw [List.append_assoc, List.drop_append_of_le_length (by omega)] at hrem
  have hstop : ∀ d ∈ ([c] ++ rest).head?, d ∉ remWord := by
    simpa using hc
  have hpre : remWord <+: front.drop i := Text.isPrefix_of_append hstop hrem
  exact hfront (hpre.isInfix.trans (List.drop_suffix i front).isInfix)

/-- A spelling that ends in a period is bounded in front of every text. -/
theorem bounded_period (law : table.Lawful) {word : List Char} (hspells : table.Spells word)
    (hperiod : word.getLast? = some '.') (rest : List Char) : Bounded table word rest := by
  obtain ⟨keyword, hk, hmem⟩ := hspells
  obtain ⟨letters, rfl⟩ := List.getLast?_eq_some_iff.mp hperiod
  refine ⟨?_, fun longer ⟨other, ho, hlonger⟩ stands => Nat.le_of_not_lt fun hlong => ?_⟩
  · apply not_remWord_drop (by decide)
    intro hinside
    have hrem := (law.regular hk).eq_remWord_of_isInfix hmem
      (hinside.trans (List.prefix_append ..).isInfix)
    rw [hrem] at hperiod
    contradiction
  · -- in a longer word the period would not be the last character
    obtain ⟨more, rfl⟩ := List.prefix_of_prefix_length_le
      (List.prefix_append (letters ++ ['.']) rest) stands.isPrefix (Nat.le_of_lt hlong)
    have hmore : more ≠ [] := by
      rintro rfl
      simp at hlong
    apply (law.regular ho).period_last hlonger
    rw [List.dropLast_append_of_ne_nil hmore]
    simp

/-! ### A respelled keyword itself -/

namespace Respelled

theorem not_remWord (terse : table.Terse) (h : Respelled table lexeme keyword) :
    ¬ remWord <:+: keyword.compactForm := by
  have reg := terse.regular h.mem
  have hform := terse.compactForm_mem h.mem
  intro hinside
  have hrem := reg.eq_remWord_of_isInfix hform hinside
  apply h.ne
  rw [hrem]
  exact reg.eq_remWord_of_mem (hrem ▸ hform) h.spelled

/-- A compact spelling is bounded, unless it is a name and a `REM` starts in it. -/
theorem bounded (terse : table.Terse) (h : Respelled table lexeme keyword)
    (hrem : keyword.compactForm = keyword.name → ∀ i < keyword.name.length,
      ¬ remWord <+: (keyword.name ++ rest).drop i) :
    Bounded table keyword.compactForm rest := by
  have hspells : table.Spells keyword.compactForm := ⟨keyword, h.mem, terse.compactForm_mem h.mem⟩
  rcases terse.compactForm_cases h.mem (h.hasAbbreviation terse) with hpoint | ⟨-, hpoint⟩ |
    ⟨hname, u, hu, hlast⟩
  · exact bounded_period terse.toLawful hspells (by simp [hpoint]) rest
  · exact bounded_period terse.toLawful hspells (by simp [hpoint]) rest
  · refine ⟨?_, fun word ⟨other, ho, hword⟩ stands => Nat.le_of_not_lt fun hlong => ?_⟩
    · rw [hname]
      exact hrem hname
    · have hpre : keyword.compactForm <+: word :=
        List.prefix_of_prefix_length_le (List.prefix_append ..) stands.isPrefix (Nat.le_of_lt hlong)
      rw [hname] at hpre hlong
      obtain ⟨rfl, ⟨-, heq⟩ | hwithin⟩ :=
        terse.eq_name_of_within h.mem ho hu hlast hword (i := 0) hpre
      · rw [heq] at hlong
        exact Nat.lt_irrefl _ hlong
      · exact Nat.lt_irrefl 0 hwithin.1

end Respelled

end PocketBasic.Lexeme
