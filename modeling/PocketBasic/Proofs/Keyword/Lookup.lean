import Mathlib.Data.List.Flatten
import PocketBasic.Proofs.Keyword.Lawful

/-! Looking a text up in the tables of the tiers. A table lists every spelling once
(`nodup_spellings`), so it does not matter in which order its entries are put into a map, nor that
an entry would replace an earlier one of the same spelling (`spelling?_eq_getElem?`). Leaving tiers
out hides the keywords of these tiers and changes nothing else (`lookup?_ofTiers`). -/

namespace PocketBasic.Keyword

/-- A keyword has different spellings. -/
theorem Regular.nodup_spellings {keyword : Keyword} (reg : keyword.Regular) :
    keyword.spellings.Nodup := by
  have period := reg.period_not_mem
  have hdot : keyword.name ≠ keyword.abbreviation ++ ['.'] := fun h => period (by simp [h])
  have hhash : keyword.name ≠ keyword.abbreviation ++ ['#', '.'] := fun h => period (by simp [h])
  rw [spellings, upper_of_isSpellingChar reg.isSpellingChar_name,
    upper_of_isSpellingChar reg.isSpellingChar_abbreviation]
  cases has : keyword.hasAbbreviation with
  | false => simp
  | true =>
    have hbare : keyword.name ≠ keyword.abbreviation := (hasAbbreviation_iff.mp has).symm
    rw [if_pos rfl]
    split <;> split <;> simp [hdot, hhash, hbare]

theorem Catalog.nodup_all : all.Nodup :=
  .of_map (·.name) (List.nodup_append.mp words_nodup).1

/-- Spellings put into a map, one after the other: an entry replaces an earlier one of the same
text. -/
def Spelling.index (entries : List Spelling) : Std.HashMap String Keyword :=
  .ofList (entries.map fun entry => (.ofList entry.text, entry.keyword))

/-- Where no text is entered twice, a map finds just what was put into it. -/
theorem Spelling.getElem?_index {entries : List Spelling}
    (nodup : (entries.map (·.text)).Nodup) {text : List Char} {keyword : Keyword} :
    (index entries)[String.ofList text]? = some keyword ↔ ⟨text, keyword⟩ ∈ entries := by
  have apart : (entries.map fun entry => (String.ofList entry.text, entry.keyword)).Pairwise
      fun a b => (a.1 == b.1) = false := by
    rw [List.pairwise_map]
    refine (List.pairwise_map.mp nodup).imp fun hne => beq_eq_false_iff_ne.mpr ?_
    exact fun heq => hne (String.ofList_inj.mp heq)
  have found {keyword : Keyword} (hmem : ⟨text, keyword⟩ ∈ entries) :
      (index entries)[String.ofList text]? = some keyword :=
    Std.HashMap.getElem?_ofList_of_mem (beq_self_eq_true _) apart
      (List.mem_map.mpr ⟨⟨text, keyword⟩, hmem, rfl⟩)
  refine ⟨fun h => ?_, found⟩
  by_cases hmem : ∃ other, ⟨text, other⟩ ∈ entries
  · obtain ⟨other, hmem⟩ := hmem
    rw [found hmem, Option.some_inj] at h
    exact h ▸ hmem
  · have absent : (index entries)[String.ofList text]? = none := by
      refine Std.HashMap.getElem?_ofList_of_contains_eq_false ?_
      rw [← Bool.not_eq_true, List.contains_iff_mem, List.map_map]
      intro htext
      obtain ⟨entry, hentry, heq⟩ := List.mem_map.mp htext
      obtain rfl := String.ofList_inj.mp heq
      exact hmem ⟨entry.keyword, hentry⟩
    rw [absent] at h
    contradiction

namespace Table

variable {text : List Char}

theorem nodup_keywords (tiers : List Tier) : (ofTiers tiers).keywords.Nodup :=
  Catalog.nodup_all.sublist (List.filter_sublist.flatMap _)

/-- No spelling is listed twice. -/
theorem nodup_spellings (tiers : List Tier) : ((ofTiers tiers).spellings.map (·.text)).Nodup := by
  have law : (ofTiers tiers).Lawful := lawful_ofTiers tiers
  have texts : (ofTiers tiers).spellings.map (·.text) =
      (ofTiers tiers).keywords.flatMap (·.spellings) := by
    rw [spellings_eq, List.map_flatMap]
    simp [entries, Function.comp_def]
  rw [texts, List.nodup_flatMap]
  refine ⟨fun keyword hk => (law.regular hk).nodup_spellings, ?_⟩
  refine (nodup_keywords tiers).pairwise_of_forall_ne fun a ha b hb hne => ?_
  exact fun _ hta htb => hne (law.unique ha hb hta htb)

/-- Entries that are put into a map in any order are found as the table finds them. -/
theorem spelling?_eq_getElem? {tiers : List Tier} {entries : List Spelling}
    (perm : entries.Perm (ofTiers tiers).spellings) (text : List Char) :
    ((ofTiers tiers).spelling? text).map (·.keyword) =
      (Spelling.index entries)[String.ofList text]? := by
  have nodup : (entries.map (·.text)).Nodup :=
    (perm.map (·.text)).nodup_iff.mpr (nodup_spellings tiers)
  refine Option.ext fun keyword => ?_
  rw [Spelling.getElem?_index nodup, perm.mem_iff, mem_spellings_iff,
    (lawful_ofTiers tiers).map_spelling?_eq_some_iff]

theorem mem_full_iff {keyword : Keyword} : keyword ∈ full.keywords ↔ keyword ∈ Catalog.all := by
  rw [full, mem_ofTiers_iff, and_iff_left]
  cases keyword.tier <;> decide

/-- Choosing tiers hides the keywords of the other tiers and does nothing else: a text is looked up
as in the table of all tiers, if the keyword found there is of a tier that was chosen. It is found
as the keyword that it spells in capitals, and no text spells two keywords. What is found does not
depend on the order in which the spellings are entered. -/
theorem lookup?_ofTiers (tiers : List Tier) (text : List Char) :
    let table := ofTiers tiers
    table.lookup? text = (full.lookup? text).filter (fun keyword => tiers.contains keyword.tier) ∧
      (∀ keyword, table.lookup? text = some keyword ↔
        keyword ∈ full.keywords ∧ keyword.tier ∈ tiers ∧ Text.upper text ∈ keyword.spellings) ∧
      (∀ a ∈ full.keywords, ∀ b ∈ full.keywords,
        Text.upper text ∈ a.spellings → Text.upper text ∈ b.spellings → a = b) ∧
      ∀ entries : List Spelling, entries.Perm table.spellings →
        table.lookup? text = (Spelling.index entries)[String.ofList (Text.upper text)]? := by
  intro table
  have law : full.Lawful := lawful_ofTiers Tier.all
  have spelled (keyword : Keyword) : table.lookup? text = some keyword ↔
      keyword ∈ full.keywords ∧ keyword.tier ∈ tiers ∧ Text.upper text ∈ keyword.spellings := by
    rw [(lawful_ofTiers tiers).lookup?_eq_some_iff, mem_ofTiers_iff, mem_full_iff, and_assoc]
  refine ⟨Option.ext fun keyword => ?_, spelled, fun a ha b hb hta htb => law.unique ha hb hta htb,
    fun entries perm => spelling?_eq_getElem? perm (Text.upper text)⟩
  rw [spelled, Option.filter_eq_some_iff, law.lookup?_eq_some_iff, List.contains_iff_mem, and_assoc,
    and_comm (a := keyword.tier ∈ tiers)]

end Table

end PocketBasic.Keyword
