import PocketBasic.Proofs.Keyword.Lawful

/-! The compact spellings. They end in a period, except where the name is as short as that: such a
keyword is spelled out although it has an abbreviation. What its name may do to the letters
around it is known from the lists of the manuals (`Table.Terse`, `terse_ofTiers`). -/

namespace PocketBasic.Keyword

variable {keyword other : Keyword} {text : List Char}

/-- What is known of a name that is spelled out and stands in another name from position `i` on.
The abbreviation of the other one ends before it, or covers all that is in front of it. -/
def Within (keyword other : Keyword) (i : Nat) : Prop :=
  0 < i ∧
    (other.hasAbbreviation = true →
      other.abbreviation.length ≤ i + keyword.abbreviation.length) ∧
    (i = 1 → 'R' ∉ other.name.drop (i + keyword.name.length)) ∧
    (i = 1 ∨ other.hasAbbreviation = true ∧ 2 ≤ other.abbreviation.length ∧
      i ≤ other.abbreviation.length)

instance (keyword other : Keyword) (i : Nat) : Decidable (Within keyword other i) :=
  inferInstanceAs (Decidable (_ ∧ _ ∧ _ ∧ _))

set_option maxRecDepth 10000 in
/-- What going through the lists of the manuals shows about the compact spellings. -/
private theorem Catalog.checkedTerse :
    (∀ keyword ∈ all, ¬ ['E', 'M'] <+: keyword.name) ∧
    (∀ keyword ∈ all, keyword.hasAbbreviation = true → keyword.hasHash = true →
      keyword.abbreviation.length + 2 < keyword.name.length ∧
      ∀ other ∈ all, ¬ keyword.abbreviation ++ ['#'] <:+ other.name) ∧
    ∀ keyword ∈ all, keyword.name.length = keyword.abbreviation.length + 1 →
      ∀ other ∈ all, keyword.name ≠ other.name → ∀ i < other.name.length,
        keyword.name <+: other.name.drop i → Within keyword other i := by
  simp only [all, Tier.all, ofTier, rows, core, ce150, ce158, List.flatMap_cons,
    List.flatMap_nil, List.map_cons, List.map_nil, Row.keyword, String.reduceToList,
    List.nil_append, List.append_nil, List.cons_append]
  decide +kernel

/-- The keywords of the table may be given their compact spellings. -/
structure Table.Terse (table : Table) : Prop extends table.Lawful where
  not_em : ∀ {keyword}, keyword ∈ table.keywords → ¬ ['E', 'M'] <+: keyword.name
  hash_shorter : ∀ {keyword}, keyword ∈ table.keywords → keyword.hasAbbreviation = true →
    keyword.hasHash = true → keyword.abbreviation.length + 2 < keyword.name.length
  hash_once : ∀ {keyword other}, keyword ∈ table.keywords → other ∈ table.keywords →
    keyword.hasAbbreviation = true → keyword.hasHash = true →
    ¬ keyword.abbreviation ++ ['#'] <:+ other.name
  within : ∀ {keyword other}, keyword ∈ table.keywords → other ∈ table.keywords →
    keyword.name.length = keyword.abbreviation.length + 1 → keyword.name ≠ other.name →
    ∀ {i}, i < other.name.length → keyword.name <+: other.name.drop i → Within keyword other i

theorem Table.terse_ofTiers (tiers : List Tier) : (ofTiers tiers).Terse where
  toLawful := lawful_ofTiers tiers
  not_em hk := Catalog.checkedTerse.1 _ (mem_ofTiers_iff.mp hk).1
  hash_shorter hk has hash := (Catalog.checkedTerse.2.1 _ (mem_ofTiers_iff.mp hk).1 has hash).1
  hash_once hk ho has hash :=
    (Catalog.checkedTerse.2.1 _ (mem_ofTiers_iff.mp hk).1 has hash).2 _ (mem_ofTiers_iff.mp ho).1
  within hk ho hlen hne _ hi hpre :=
    Catalog.checkedTerse.2.2 _ (mem_ofTiers_iff.mp hk).1 hlen _ (mem_ofTiers_iff.mp ho).1 hne _ hi
      hpre

/-! ### Spellings -/

namespace Regular

theorem mem_spellings_of_not (reg : keyword.Regular) (has : keyword.hasAbbreviation = false)
    (h : text ∈ keyword.spellings) : text = keyword.name := by
  rcases reg.mem_spellings_iff.mp h with rfl | ⟨hyes, -⟩
  · rfl
  · rw [has] at hyes
    contradiction

/-- A keyword that is spelled `REM` is spelled in no other way. -/
theorem eq_remWord_of_mem (reg : keyword.Regular) (hrem : remWord ∈ keyword.spellings)
    (h : text ∈ keyword.spellings) : text = remWord := by
  obtain ⟨-, hname⟩ := reg.eq_remWord_of_isPrefix hrem List.prefix_rfl
  obtain ⟨-, hshort⟩ := reg.remWord_isPrefix (hname ▸ List.prefix_rfl)
  rw [← hname]
  apply reg.mem_spellings_of_not _ h
  simp [hasAbbreviation, hshort, hname]

theorem abbreviation_mem_spellings (reg : keyword.Regular) (has : keyword.hasAbbreviation = true)
    (hlen : 2 ≤ keyword.abbreviation.length) : keyword.abbreviation ∈ keyword.spellings :=
  reg.mem_spellings_iff.mpr (.inr ⟨has, .inr (.inl ⟨hlen, rfl⟩)⟩)

theorem abbreviation_length_lt (reg : keyword.Regular) (has : keyword.hasAbbreviation = true) :
    keyword.abbreviation.length < keyword.name.length := by
  apply Nat.lt_of_le_of_ne reg.abbreviation_isPrefix.length_le
  intro hlen
  exact hasAbbreviation_iff.mp has (reg.abbreviation_isPrefix.eq_of_length hlen)

end Regular

theorem compactForm_of_not (has : keyword.hasAbbreviation = false) :
    keyword.compactForm = keyword.name := by
  rw [compactForm, has, Bool.false_and, if_neg Bool.false_ne_true, listed, ifShorter, if_neg]
  rw [abbreviation_eq has, Text.byteLength_append]
  omega

/-! ### Terse tables -/

namespace Table.Terse

variable {table : Table}

/-- The compact spelling of an abbreviated keyword. -/
theorem compactForm_cases (terse : table.Terse) (hk : keyword ∈ table.keywords)
    (has : keyword.hasAbbreviation = true) :
    keyword.compactForm = keyword.abbreviation ++ ['.'] ∨
      keyword.hasHash = true ∧ keyword.compactForm = keyword.abbreviation ++ ['#', '.'] ∨
      keyword.compactForm = keyword.name ∧
        ∃ u, u ≠ '#' ∧ keyword.name = keyword.abbreviation ++ [u] := by
  have reg := terse.regular hk
  have hname := byteLength_of_isSpellingChar reg.isSpellingChar_name
  have hshort := byteLength_of_isSpellingChar reg.isSpellingChar_abbreviation
  cases hash : keyword.hasHash with
  | true =>
    right; left
    have hlt := terse.hash_shorter hk has hash
    rw [compactForm, has, hash, Bool.and_self, if_pos rfl, ifShorter, if_pos]
    · exact ⟨rfl, rfl⟩
    · rw [Text.byteLength_append, hname, hshort]
      exact hlt
  | false =>
    rw [compactForm, hash, Bool.and_false, if_neg Bool.false_ne_true, listed, ifShorter]
    split
    next => exact .inl rfl
    next hle =>
      right; right
      refine ⟨rfl, ?_⟩
      rw [Text.byteLength_append, hname, hshort] at hle
      have hlt := reg.abbreviation_length_lt has
      obtain ⟨more, hmore⟩ := reg.abbreviation_isPrefix
      have hlen : more.length = 1 := by
        have hone : Text.byteLength ['.'] = 1 := rfl
        have := congrArg List.length hmore
        rw [List.length_append] at this
        omega
      obtain ⟨u, rfl⟩ := List.length_eq_one_iff.mp hlen
      refine ⟨u, ?_, hmore.symm⟩
      rintro rfl
      simp [hasHash, ← hmore] at hash

/-- A name that is spelled out adds one letter to its abbreviation. -/
theorem exists_last_of_compactForm_eq (terse : table.Terse) (hk : keyword ∈ table.keywords)
    (has : keyword.hasAbbreviation = true) (h : keyword.compactForm = keyword.name) :
    ∃ u, u ≠ '#' ∧ keyword.name = keyword.abbreviation ++ [u] := by
  have period := (terse.regular hk).period_not_mem
  rw [← h] at period
  rcases terse.compactForm_cases hk has with hform | ⟨-, hform⟩ | ⟨-, hlast⟩
  · simp [hform] at period
  · simp [hform] at period
  · exact hlast

theorem compactForm_mem (terse : table.Terse) (hk : keyword ∈ table.keywords) :
    keyword.compactForm ∈ keyword.spellings := by
  have reg := terse.regular hk
  cases has : keyword.hasAbbreviation with
  | false =>
    rw [compactForm_of_not has]
    exact reg.name_mem_spellings
  | true =>
    apply reg.mem_spellings_iff.mpr
    rcases terse.compactForm_cases hk has with h | ⟨hash, h⟩ | ⟨h, -⟩
    · exact .inr ⟨has, .inl h⟩
    · exact .inr ⟨has, .inr (.inr ⟨hash, h⟩)⟩
    · exact .inl h

/-- The compact spelling that is kept short is marked by a period. -/
theorem compactForm_ne_abbreviation (terse : table.Terse) (hk : keyword ∈ table.keywords)
    (has : keyword.hasAbbreviation = true) : keyword.compactForm ≠ keyword.abbreviation := by
  rcases terse.compactForm_cases hk has with h | ⟨-, h⟩ | ⟨h, -⟩
  · simp [h]
  · simp [h]
  · rw [h]
    exact (hasAbbreviation_iff.mp has).symm

/-- No spelling starts with `EM`. -/
theorem not_em_of_mem (terse : table.Terse) (hk : keyword ∈ table.keywords)
    (h : text ∈ keyword.spellings) : ¬ ['E', 'M'] <+: text := by
  intro hpre
  have reg := terse.regular hk
  rcases reg.exists_signs h with rfl | ⟨has, signs, hsigns, rfl⟩
  · exact terse.not_em hk hpre
  by_cases hlen : 2 ≤ keyword.abbreviation.length
  · apply terse.not_em hk
    refine List.IsPrefix.trans ?_ reg.abbreviation_isPrefix
    exact List.prefix_of_prefix_length_le hpre (List.prefix_append ..) hlen
  · obtain ⟨more, hmore⟩ := hpre
    cases hcons : keyword.abbreviation with
    | nil => exact reg.abbreviation_ne_nil hcons
    | cons c others =>
      have hnil : others = [] := by
        rw [hcons, List.length_cons] at hlen
        exact List.length_eq_zero_iff.mp (by omega)
      rw [hcons, hnil] at hmore
      have htail : 'M' :: more = signs := (List.cons.inj hmore).2
      have := hsigns 'M' (htail ▸ List.mem_cons_self)
      contradiction

theorem not_em_of_append (terse : table.Terse) (hk : keyword ∈ table.keywords)
    (h : text ∈ keyword.spellings) (rest : List Char) : ¬ ['E', 'M'] <+: text ++ rest := by
  intro hpre
  apply terse.not_em_of_mem hk h
  exact List.prefix_of_prefix_length_le hpre (List.prefix_append ..)
    ((terse.regular hk).two_le_length_of_mem h)

/-- The last letter of a name that is spelled out is none of the signs that may follow an
abbreviation, so the name does not reach over to them. -/
theorem isPrefix_of_append_points (terse : table.Terse) (hk : keyword ∈ table.keywords) {u : Char}
    (hu : u ≠ '#') (hname : keyword.name = keyword.abbreviation ++ [u]) {letters points : List Char}
    (hpoints : ∀ c ∈ points, c = '.' ∨ c = '#') {i : Nat}
    (h : keyword.name <+: (letters ++ points).drop i) : keyword.name <+: letters.drop i := by
  have hlen : keyword.name.length = keyword.abbreviation.length + 1 := by
    rw [hname, List.length_append]
    rfl
  have hfits : i + keyword.name.length ≤ letters.length := by
    refine Nat.le_of_not_lt fun hlt => ?_
    have hlast : (letters ++ points)[i + keyword.abbreviation.length]? = some u := by
      obtain ⟨more, hmore⟩ := h
      rw [← List.getElem?_drop, ← hmore, hname]
      simp
    have hmem : u ∈ points := by
      rw [List.getElem?_append_right (by omega)] at hlast
      exact List.mem_of_getElem? hlast
    rcases hpoints u hmem with rfl | rfl
    · exact (terse.regular hk).period_not_mem (by simp [hname])
    · exact hu rfl
  rw [List.drop_append_of_le_length (by omega)] at h
  refine List.prefix_of_prefix_length_le h (List.prefix_append ..) ?_
  rw [List.length_drop]
  omega

/-- Only another name holds a name that is spelled out, and that in a way that is known. -/
theorem eq_name_of_within (terse : table.Terse) (hk : keyword ∈ table.keywords)
    (ho : other ∈ table.keywords) {u : Char} (hu : u ≠ '#')
    (hname : keyword.name = keyword.abbreviation ++ [u]) (htext : text ∈ other.spellings)
    {i : Nat} (h : keyword.name <+: text.drop i) :
    text = other.name ∧ (i = 0 ∧ keyword.name = other.name ∨ Within keyword other i) := by
  have hlen : keyword.name.length = keyword.abbreviation.length + 1 := by
    rw [hname, List.length_append]
    rfl
  have hle := h.length_le
  rw [List.length_drop] at hle
  rcases (terse.regular ho).exists_points htext with rfl | ⟨has, points, hpoints, rfl⟩
  · refine ⟨rfl, ?_⟩
    by_cases heq : keyword.name = other.name
    · rw [heq] at hle hlen
      exact .inl ⟨by omega, heq⟩
    · exact .inr (terse.within hk ho hlen heq (by omega) h)
  -- All of the name would stand in the abbreviation, which ends before another name does.
  · exfalso
    have hpre := terse.isPrefix_of_append_points hk hu hname hpoints h
    have hfits := hpre.length_le
    rw [List.length_drop] at hfits
    have hshort := (terse.regular ho).abbreviation_length_lt has
    have hin : keyword.name <+: other.name.drop i :=
      hpre.trans ((terse.regular ho).abbreviation_isPrefix.drop i)
    have hne : keyword.name ≠ other.name := by
      intro heq
      rw [heq] at hfits
      omega
    have hends := (terse.within hk ho hlen hne (by omega) hin).2.1 has
    omega

end Table.Terse

end PocketBasic.Keyword
