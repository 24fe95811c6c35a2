import Mathlib.Data.List.Nodup
import PocketBasic.Proofs.Keyword.Regular

/-! Lawful tables: all keywords are regular, and a spelling belongs to one keyword only. In such a
table looking a spelling up finds the keyword that it belongs to (`Lawful.lookup?_eq`), and a text
that spells nothing is not found. The tables of the tiers are lawful (`lawful_ofTiers`): this is
where the lists of the manuals are gone through, once. -/

namespace PocketBasic.Keyword

namespace Catalog

/-- The keywords of every tier. -/
def all : List Keyword :=
  Tier.all.flatMap ofTier

/-- The names of all keywords and the abbreviations that are not names. -/
def words : List (List Char) :=
  all.map (·.name) ++ (all.filter (·.hasAbbreviation)).map (·.abbreviation)

/-- A word as a number, so that words are quick to tell apart. -/
private def number (word : List Char) : Nat :=
  word.foldl (fun n c => 128 * n + c.toNat) 0

set_option maxRecDepth 10000 in
/-- What going through the lists of the manuals shows. -/
private theorem checked :
    (∀ keyword ∈ all,
      2 ≤ keyword.name.length ∧
      (∀ c ∈ keyword.name, isNameChar c = true) ∧
      (∀ c ∈ keyword.name.dropLast, c.isUpper = true) ∧
      keyword.abbreviation ≠ [] ∧
      keyword.abbreviation <+: keyword.name ∧
      (keyword.hasAbbreviation = true → ∀ c ∈ keyword.abbreviation, c.isUpper = true) ∧
      (2 ≤ keyword.abbreviation.length → ¬ keyword.abbreviation <:+: keyword.name.tail) ∧
      ¬ remWord <:+: keyword.name.tail ∧
      (remWord <+: keyword.name → keyword.name = remWord ∧ keyword.abbreviation = remWord)) ∧
    (words.map number).Nodup := by
  simp only [words, all, Tier.all, ofTier, rows, core, ce150, ce158, List.flatMap_cons,
    List.flatMap_nil, List.map_cons, List.map_nil, Row.keyword, String.reduceToList,
    List.nil_append, List.append_nil, List.cons_append]
  decide +kernel

theorem regular {keyword : Keyword} (h : keyword ∈ all) : keyword.Regular :=
  let ⟨h1, h2, h3, h4, h5, h6, h7, h8, h9⟩ := checked.1 keyword h
  ⟨h1, h2, h3, h4, h5, h6, h7, h8, h9⟩

/-- No two keywords share a name or an abbreviation. -/
theorem words_nodup : words.Nodup :=
  .of_map number checked.2

theorem name_inj {a b : Keyword} (ha : a ∈ all) (hb : b ∈ all) (h : a.name = b.name) : a = b :=
  List.inj_on_of_nodup_map (List.nodup_append.mp words_nodup).1 ha hb h

theorem abbreviation_inj {a b : Keyword} (ha : a ∈ all) (hb : b ∈ all)
    (hasA : a.hasAbbreviation = true) (hasB : b.hasAbbreviation = true)
    (h : a.abbreviation = b.abbreviation) : a = b :=
  List.inj_on_of_nodup_map (List.nodup_append.mp words_nodup).2.1
    (List.mem_filter.mpr ⟨ha, hasA⟩) (List.mem_filter.mpr ⟨hb, hasB⟩) h

theorem name_ne_abbreviation {a b : Keyword} (ha : a ∈ all) (hb : b ∈ all)
    (hasB : b.hasAbbreviation = true) : a.name ≠ b.abbreviation :=
  (List.nodup_append.mp words_nodup).2.2 _ (List.mem_map_of_mem ha) _
    (List.mem_map_of_mem (List.mem_filter.mpr ⟨hb, hasB⟩))

/-- A name is a spelling of its own keyword only. -/
private theorem eq_of_name_mem_spellings {a b : Keyword} (ha : a ∈ all) (hb : b ∈ all)
    (h : a.name ∈ b.spellings) : a = b := by
  have period := (regular ha).period_not_mem
  rcases (regular hb).mem_spellings_iff.mp h with h | ⟨has, h | ⟨_, h⟩ | ⟨_, h⟩⟩
  · exact name_inj ha hb h
  · exact absurd (by simp [h]) period
  · exact absurd h (name_ne_abbreviation ha hb has)
  · exact absurd (by simp [h]) period

/-- A spelling belongs to one keyword only. -/
theorem eq_of_mem_spellings {a b : Keyword} (ha : a ∈ all) (hb : b ∈ all) {text : List Char}
    (hta : text ∈ a.spellings) (htb : text ∈ b.spellings) : a = b := by
  rcases (regular ha).exists_signs hta with rfl | ⟨hasA, signsA, hsignsA, heqA⟩
  · exact eq_of_name_mem_spellings ha hb htb
  rcases (regular hb).exists_signs htb with rfl | ⟨hasB, signsB, hsignsB, heqB⟩
  · exact (eq_of_name_mem_spellings hb ha hta).symm
  have capitals {abbreviation signs : List Char} (hu : ∀ c ∈ abbreviation, c.isUpper = true)
      (hs : ∀ c ∈ signs, c.isUpper = false) :
      (abbreviation ++ signs).takeWhile Char.isUpper = abbreviation := by
    rw [List.takeWhile_append_of_pos hu]
    cases signs with
    | nil => simp
    | cons c signs => simp [hs c List.mem_cons_self]
  apply abbreviation_inj ha hb hasA hasB
  rw [← capitals ((regular ha).isUpper_abbreviation hasA) hsignsA, ← heqA, heqB,
    capitals ((regular hb).isUpper_abbreviation hasB) hsignsB]

end Catalog

namespace Table

/-- All keywords have the shape that the manuals give to them, and no two share a spelling. -/
structure Lawful (table : Table) : Prop where
  regular : ∀ {keyword}, keyword ∈ table.keywords → keyword.Regular
  unique : ∀ {a b}, a ∈ table.keywords → b ∈ table.keywords →
    ∀ {text}, text ∈ a.spellings → text ∈ b.spellings → a = b

theorem mem_spellings_iff {table : Table} {spelling : Spelling} :
    spelling ∈ table.spellings ↔
      spelling.keyword ∈ table.keywords ∧ spelling.text ∈ spelling.keyword.spellings := by
  rw [table.spellings_eq]
  constructor
  · intro h
    obtain ⟨keyword, hk, h⟩ := List.mem_flatMap.mp h
    obtain ⟨text, ht, rfl⟩ := List.mem_map.mp h
    exact ⟨hk, ht⟩
  · rintro ⟨hk, ht⟩
    exact List.mem_flatMap.mpr ⟨_, hk, List.mem_map.mpr ⟨_, ht, rfl⟩⟩

theorem mem_of_lookup? {table : Table} {text : List Char} {keyword : Keyword}
    (h : table.lookup? text = some keyword) :
    keyword ∈ table.keywords ∧ Text.upper text ∈ keyword.spellings := by
  obtain ⟨spelling, hfind, rfl⟩ := Option.map_eq_some_iff.mp h
  have hmem := mem_spellings_iff.mp (List.mem_of_find?_eq_some hfind)
  have htext : spelling.text = Text.upper text := by simpa using List.find?_some hfind
  exact ⟨hmem.1, htext ▸ hmem.2⟩

namespace Lawful

variable {table : Table} {spelling other : Spelling} {text : List Char} {keyword : Keyword}

theorem upper_eq (law : table.Lawful) {keyword : Keyword} (hk : keyword ∈ table.keywords)
    {text : List Char} (ht : text ∈ keyword.spellings) : Text.upper text = text :=
  upper_of_isSpellingChar ((law.regular hk).isSpellingChar_of_mem ht)

/-- A spelling is listed for one keyword only. -/
theorem eq_of_text_eq (law : table.Lawful) (hs : spelling ∈ table.spellings)
    (ho : other ∈ table.spellings) (h : spelling.text = other.text) : spelling = other := by
  obtain ⟨hk, ht⟩ := mem_spellings_iff.mp hs
  obtain ⟨hk', ht'⟩ := mem_spellings_iff.mp ho
  cases spelling
  cases other
  cases h
  cases law.unique hk hk' ht ht'
  rfl

theorem spelling?_eq_some_iff (law : table.Lawful) :
    table.spelling? text = some spelling ↔ spelling ∈ table.spellings ∧ spelling.text = text := by
  constructor
  · intro h
    exact ⟨List.mem_of_find?_eq_some h, by simpa using List.find?_some h⟩
  · rintro ⟨hs, rfl⟩
    cases h : table.spelling? spelling.text with
    | none => exact absurd (beq_self_eq_true _) (List.find?_eq_none.mp h spelling hs)
    | some found =>
      have heq : found.text = spelling.text := by simpa using List.find?_some h
      rw [law.eq_of_text_eq (List.mem_of_find?_eq_some h) hs heq]

/-- A text that is matched letter by letter is a spelling of the keyword that is found. -/
theorem map_spelling?_eq_some_iff (law : table.Lawful) :
    (table.spelling? text).map (·.keyword) = some keyword ↔
      keyword ∈ table.keywords ∧ text ∈ keyword.spellings := by
  rw [Option.map_eq_some_iff]
  constructor
  · rintro ⟨spelling, hfound, rfl⟩
    obtain ⟨hs, rfl⟩ := law.spelling?_eq_some_iff.mp hfound
    exact mem_spellings_iff.mp hs
  · intro hk
    have hs : ⟨text, keyword⟩ ∈ table.spellings := mem_spellings_iff.mpr hk
    exact ⟨_, law.spelling?_eq_some_iff.mpr ⟨hs, rfl⟩, rfl⟩

/-- A text is looked up as the keyword that it spells in capitals. -/
theorem lookup?_eq_some_iff (law : table.Lawful) :
    table.lookup? text = some keyword ↔
      keyword ∈ table.keywords ∧ Text.upper text ∈ keyword.spellings :=
  law.map_spelling?_eq_some_iff

/-- A spelling is looked up as the keyword that it belongs to. -/
theorem lookup?_eq (law : table.Lawful) {keyword : Keyword} (hk : keyword ∈ table.keywords)
    {text : List Char} (ht : text ∈ keyword.spellings) : table.lookup? text = some keyword :=
  law.lookup?_eq_some_iff.mpr ⟨hk, (law.upper_eq hk ht).symm ▸ ht⟩

end Lawful

/-- The keywords of the tiers, whatever their order, come from the manuals. -/
theorem mem_ofTiers_iff {tiers : List Tier} {keyword : Keyword} :
    keyword ∈ (ofTiers tiers).keywords ↔ keyword ∈ Catalog.all ∧ keyword.tier ∈ tiers := by
  have tier_eq {tier : Tier} (h : keyword ∈ Catalog.ofTier tier) : keyword.tier = tier := by
    obtain ⟨row, _, rfl⟩ := List.mem_map.mp h
    rfl
  simp only [ofTiers, Catalog.all, List.mem_flatMap, List.mem_filter, List.contains_iff_mem]
  constructor
  · rintro ⟨tier, ⟨htier, hmem⟩, h⟩
    exact ⟨⟨tier, htier, h⟩, tier_eq h ▸ hmem⟩
  · rintro ⟨⟨tier, htier, h⟩, hmem⟩
    exact ⟨tier, ⟨htier, tier_eq h ▸ hmem⟩, h⟩

theorem lawful_ofTiers (tiers : List Tier) : (ofTiers tiers).Lawful where
  regular h := Catalog.regular (mem_ofTiers_iff.mp h).1
  unique ha hb _ hta htb :=
    Catalog.eq_of_mem_spellings (mem_ofTiers_iff.mp ha).1 (mem_ofTiers_iff.mp hb).1 hta htb

end Table

end PocketBasic.Keyword
