import PocketBasic.Proofs.Keyword.Lawful

/-! The keyword in front of a text. A spelling stands in front of a text if it is a prefix of it that
no later `REM` runs into (`Stands`), and the scanner finds the longest of those
(`keywordAt?_eq_some`, `keywordAt?_eq_none`). -/

namespace PocketBasic

/-- The spelling is one of the table. -/
def Keyword.Table.Spells (table : Keyword.Table) (word : List Char) : Prop :=
  ∃ keyword ∈ table.keywords, word ∈ keyword.spellings

theorem Keyword.Table.spells_iff {table : Keyword.Table} {word : List Char} :
    table.Spells word ↔ ∃ spelling ∈ table.spellings, spelling.text = word := by
  constructor
  · rintro ⟨keyword, hk, hw⟩
    exact ⟨⟨word, keyword⟩, mem_spellings_iff.mpr ⟨hk, hw⟩, rfl⟩
  · rintro ⟨spelling, hs, rfl⟩
    obtain ⟨hk, hw⟩ := mem_spellings_iff.mp hs
    exact ⟨_, hk, hw⟩

theorem Keyword.Table.Spells.exists_cons {table : Keyword.Table} {word : List Char}
    (h : table.Spells word) (law : table.Lawful) :
    ∃ c others, word = c :: others ∧ c.isUpper = true ∧ others ≠ [] := by
  obtain ⟨keyword, hk, hw⟩ := h
  exact (law.regular hk).exists_cons_of_mem hw

theorem Keyword.Table.Spells.isSpellingChar {table : Keyword.Table} {word : List Char}
    (h : table.Spells word) (law : table.Lawful) : ∀ c ∈ word, isSpellingChar c = true := by
  obtain ⟨keyword, hk, hw⟩ := h
  exact (law.regular hk).isSpellingChar_of_mem hw

namespace Lexeme

theorem startsRem_iff {text : List Char} : startsRem text = true ↔ remWord <+: text :=
  List.isPrefixOf_iff_prefix

theorem remWithin_iff {n : Nat} {text : List Char} :
    remWithin n text = true ↔ ∃ i < n, remWord <+: text.drop i := by
  induction n generalizing text with
  | zero => simp [remWithin]
  | succ n ih =>
    cases text with
    | nil => simp [remWithin, remWord]
    | cons c text =>
      rw [remWithin, Bool.or_eq_true, startsRem_iff, ih]
      constructor
      · rintro (h | ⟨i, hi, h⟩)
        · exact ⟨0, by omega, h⟩
        · exact ⟨i + 1, by omega, h⟩
      · rintro ⟨i, hi, h⟩
        cases i with
        | zero => exact .inl h
        | succ i => exact .inr ⟨i, by omega, h⟩

/-- The word is in front of the text, and no `REM` starts inside of it there. -/
structure Stands (word text : List Char) : Prop where
  isPrefix : word <+: text
  uninterrupted : ∀ i, 0 < i → i < word.length → ¬ remWord <+: text.drop i

theorem stands_iff {word text : List Char} :
    Stands word text ↔
      (word.isPrefixOf text && !remWithin (word.length - 1) text.tail) = true := by
  rw [Bool.and_eq_true, List.isPrefixOf_iff_prefix, Bool.not_eq_true', ← Bool.not_eq_true,
    remWithin_iff]
  constructor
  · rintro ⟨hp, hu⟩
    refine ⟨hp, ?_⟩
    rintro ⟨i, hi, h⟩
    rw [List.drop_tail] at h
    exact hu (i + 1) (by omega) (by omega) h
  · rintro ⟨hp, hu⟩
    refine ⟨hp, fun i hpos hi h => hu ⟨i - 1, by omega, ?_⟩⟩
    rwa [List.drop_tail, Nat.sub_add_cancel hpos]

theorem length_le_of_longest? {spellings : List Keyword.Spelling} {longest : Keyword.Spelling}
    (h : Keyword.Spelling.longest? spellings = some longest) :
    longest ∈ spellings ∧ ∀ other ∈ spellings, other.text.length ≤ longest.text.length := by
  induction spellings generalizing longest with
  | nil => simp [Keyword.Spelling.longest?] at h
  | cons first others ih =>
    rw [Keyword.Spelling.longest?] at h
    split at h
    next hnone =>
      cases h
      cases others with
      | nil => simp
      | cons second others =>
        rw [Keyword.Spelling.longest?] at hnone
        split at hnone <;> cases hnone
    next other hother =>
      obtain ⟨hmem, hle⟩ := ih hother
      cases h
      split
      next hlt =>
        refine ⟨List.mem_cons_of_mem _ hmem, fun s hs => ?_⟩
        rcases List.mem_cons.mp hs with rfl | hs
        · exact Nat.le_of_lt hlt
        · exact hle s hs
      next hnlt =>
        refine ⟨List.mem_cons_self, fun s hs => ?_⟩
        rcases List.mem_cons.mp hs with rfl | hs
        · exact Nat.le_refl _
        · exact Nat.le_trans (hle s hs) (Nat.le_of_not_lt hnlt)

theorem longest?_eq_none {spellings : List Keyword.Spelling} :
    Keyword.Spelling.longest? spellings = none ↔ spellings = [] := by
  cases spellings with
  | nil => simp [Keyword.Spelling.longest?]
  | cons first others =>
    rw [Keyword.Spelling.longest?]
    split <;> simp

variable {table : Keyword.Table} {text : List Char}

/-- No keyword is found where no spelling stands. -/
theorem keywordAt?_eq_none :
    keywordAt? table text = none ↔ ∀ word, table.Spells word → ¬ Stands word text := by
  rw [keywordAt?, longest?_eq_none, List.filter_eq_nil_iff]
  constructor
  · intro h word hw hstands
    obtain ⟨spelling, hs, rfl⟩ := Keyword.Table.spells_iff.mp hw
    exact h spelling hs (stands_iff.mp hstands)
  · intro h spelling hs hstands
    exact h _ (Keyword.Table.spells_iff.mpr ⟨spelling, hs, rfl⟩) (stands_iff.mpr hstands)

/-- The keyword that is found is the longest that stands there. -/
theorem keywordAt?_eq_some {spelling : Keyword.Spelling}
    (h : keywordAt? table text = some spelling) :
    table.Spells spelling.text ∧ Stands spelling.text text ∧
      ∀ word, table.Spells word → Stands word text → word.length ≤ spelling.text.length := by
  obtain ⟨hmem, hle⟩ := length_le_of_longest? h
  obtain ⟨hs, hstands⟩ := List.mem_filter.mp hmem
  refine ⟨Keyword.Table.spells_iff.mpr ⟨_, hs, rfl⟩, stands_iff.mpr hstands, ?_⟩
  intro word hw hstands
  obtain ⟨other, ho, rfl⟩ := Keyword.Table.spells_iff.mp hw
  exact hle other (List.mem_filter.mpr ⟨ho, stands_iff.mp hstands⟩)

/-- What is found where a longest spelling stands is as long as it. -/
theorem exists_keywordAt? {word : List Char} (hw : table.Spells word) (hstands : Stands word text)
    (hle : ∀ other, table.Spells other → Stands other text → other.length ≤ word.length) :
    ∃ spelling, keywordAt? table text = some spelling ∧ spelling.text = word := by
  cases h : keywordAt? table text with
  | none => exact absurd hstands (keywordAt?_eq_none.mp h word hw)
  | some spelling =>
    obtain ⟨hs, hst, hlongest⟩ := keywordAt?_eq_some h
    refine ⟨spelling, rfl, List.IsPrefix.eq_of_length ?_ ?_⟩
    · exact List.prefix_of_prefix_length_le hst.isPrefix hstands.isPrefix (hle _ hs hst)
    · exact Nat.le_antisymm (hle _ hs hst) (hlongest _ hw hstands)

end Lexeme

end PocketBasic
