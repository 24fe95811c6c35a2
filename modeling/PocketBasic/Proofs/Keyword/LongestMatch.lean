import PocketBasic.Proofs.Keyword.Lawful

/-! The longest match. The search for it tries the fronts of a text from the longest that can be a
spelling down to the shortest, and looks each of them up. What it finds is a spelling in front of
the text, no longer spelling stands there (`longestMatch?_eq_some_iff`), and it finds one if any
stands there (`longestMatch?_eq_none_iff`). -/

namespace PocketBasic.Keyword.Table

variable {table : Table} {text : List Char} {limit : Nat} {spelling other : Spelling}

namespace Lawful

theorem isSpellingChar (law : table.Lawful) (hs : spelling ∈ table.spellings) :
    ∀ c ∈ spelling.text, isSpellingChar c = true :=
  have hk := mem_spellings_iff.mp hs
  (law.regular hk.1).isSpellingChar_of_mem hk.2

theorem byteLength_pos (law : table.Lawful) (hs : spelling ∈ table.spellings) :
    0 < Text.byteLength spelling.text := by
  obtain ⟨hk, ht⟩ := mem_spellings_iff.mp hs
  rw [byteLength_of_isSpellingChar (law.isSpellingChar hs), List.length_pos_iff]
  exact (law.regular hk).ne_nil_of_mem ht

/-- One step of the search finds the spelling that takes up just these bytes. -/
theorem spelling?_takeBytes?_eq_some_iff (law : table.Lawful) {n : Nat} :
    (Text.takeBytes? text n).bind table.spelling? = some spelling ↔
      spelling ∈ table.spellings ∧ spelling.text <+: text ∧ Text.byteLength spelling.text = n := by
  rw [Option.bind_eq_some_iff]
  constructor
  · rintro ⟨front, htake, hfound⟩
    obtain ⟨hs, rfl⟩ := law.spelling?_eq_some_iff.mp hfound
    exact ⟨hs, Text.takeBytes?_eq_some_iff.mp htake⟩
  · rintro ⟨hs, hfront⟩
    exact ⟨_, Text.takeBytes?_eq_some_iff.mpr hfront, law.spelling?_eq_some_iff.mpr ⟨hs, rfl⟩⟩

end Lawful

/-- The spelling stands in front of the text, and no longer one of at most `limit` bytes does. -/
structure LongestWithin (table : Table) (text : List Char) (limit : Nat) (spelling : Spelling) :
    Prop where
  mem : spelling ∈ table.spellings
  isPrefix : spelling.text <+: text
  le_limit : Text.byteLength spelling.text ≤ limit
  longest : ∀ other ∈ table.spellings, other.text <+: text →
    Text.byteLength other.text ≤ limit → Text.byteLength other.text ≤ Text.byteLength spelling.text

theorem LongestWithin.unique (law : table.Lawful) (h : table.LongestWithin text limit spelling)
    (h' : table.LongestWithin text limit other) : spelling = other := by
  refine law.eq_of_text_eq h.mem h'.mem ?_
  have hle := h.longest other h'.mem h'.isPrefix h'.le_limit
  have hle' := h'.longest spelling h.mem h.isPrefix h.le_limit
  rw [byteLength_of_isSpellingChar (law.isSpellingChar h.mem),
    byteLength_of_isSpellingChar (law.isSpellingChar h'.mem)] at hle hle'
  have hfront := List.prefix_of_prefix_length_le h.isPrefix h'.isPrefix hle'
  exact hfront.eq_of_length (Nat.le_antisymm hle' hle)

/-- The search finds the longest spelling within the limit, or there is none. -/
theorem matchWithin?_spec (law : table.Lawful) (text : List Char) (limit : Nat) :
    (∃ spelling, table.matchWithin? text limit = some spelling ∧
      table.LongestWithin text limit spelling) ∨
    (table.matchWithin? text limit = none ∧ ∀ spelling ∈ table.spellings,
      spelling.text <+: text → limit < Text.byteLength spelling.text) := by
  induction limit with
  | zero => exact .inr ⟨rfl, fun spelling hs _ => law.byteLength_pos hs⟩
  | succ limit ih =>
    rw [matchWithin?]
    cases hfound : (Text.takeBytes? text (limit + 1)).bind table.spelling? with
    | some found =>
      obtain ⟨hs, hfront, hlength⟩ := law.spelling?_takeBytes?_eq_some_iff.mp hfound
      exact .inl ⟨found, rfl, hs, hfront, Nat.le_of_eq hlength, fun _ _ _ hle => hlength ▸ hle⟩
    | none =>
      -- no spelling is as long as this limit, so the limit below says the same
      have hne : ∀ spelling ∈ table.spellings, spelling.text <+: text →
          Text.byteLength spelling.text ≠ limit + 1 := by
        intro spelling hs hfront hlength
        have := law.spelling?_takeBytes?_eq_some_iff.mpr ⟨hs, hfront, hlength⟩
        rw [hfound] at this
        contradiction
      rcases ih with ⟨spelling, heq, h⟩ | ⟨heq, h⟩
      · refine .inl ⟨spelling, heq, h.mem, h.isPrefix, Nat.le_succ_of_le h.le_limit, ?_⟩
        intro other ho hfront hle
        have := hne other ho hfront
        exact h.longest other ho hfront (by omega)
      · refine .inr ⟨heq, fun spelling hs hfront => ?_⟩
        have := hne spelling hs hfront
        have := h spelling hs hfront
        omega

theorem byteLength_le_longestSpelling (hs : spelling ∈ table.spellings) :
    Text.byteLength spelling.text ≤ table.longestSpelling := by
  rw [longestSpelling]
  generalize table.spellings = spellings at hs ⊢
  induction spellings with
  | nil => contradiction
  | cons first others ih =>
    rw [List.foldr_cons]
    rcases List.mem_cons.mp hs with rfl | hs
    · exact Nat.le_max_left ..
    · exact Nat.le_trans (ih hs) (Nat.le_max_right ..)

/-- No spelling in front of a text is beyond the limit of the search. -/
theorem byteLength_le_limit (hs : spelling ∈ table.spellings) (hfront : spelling.text <+: text) :
    Text.byteLength spelling.text ≤ min table.longestSpelling (Text.byteLength text) := by
  refine Nat.le_min.mpr ⟨byteLength_le_longestSpelling hs, ?_⟩
  obtain ⟨rest, rfl⟩ := hfront
  rw [Text.byteLength_append]
  exact Nat.le_add_right ..

/-- The longest match is the longest spelling in front of the text. -/
theorem longestMatch?_eq_some_iff (law : table.Lawful) :
    table.longestMatch? text = some spelling ↔
      spelling ∈ table.spellings ∧ spelling.text <+: text ∧
        ∀ other ∈ table.spellings, other.text <+: text →
          Text.byteLength other.text ≤ Text.byteLength spelling.text := by
  have within : (spelling ∈ table.spellings ∧ spelling.text <+: text ∧
      ∀ other ∈ table.spellings, other.text <+: text →
        Text.byteLength other.text ≤ Text.byteLength spelling.text) ↔
      table.LongestWithin text (min table.longestSpelling (Text.byteLength text)) spelling :=
    ⟨fun ⟨hs, hfront, hlongest⟩ => ⟨hs, hfront, byteLength_le_limit hs hfront,
      fun other ho hother _ => hlongest other ho hother⟩,
    fun h => ⟨h.mem, h.isPrefix, fun other ho hother =>
      h.longest other ho hother (byteLength_le_limit ho hother)⟩⟩
  rw [within, longestMatch?]
  rcases matchWithin?_spec law text (min table.longestSpelling (Text.byteLength text)) with
    ⟨found, heq, h⟩ | ⟨heq, h⟩
  · rw [heq, Option.some_inj]
    exact ⟨fun hfound => hfound ▸ h, fun h' => h.unique law h'⟩
  · rw [heq]
    refine iff_of_false nofun fun h' => ?_
    exact Nat.not_lt.mpr h'.le_limit (h spelling h'.mem h'.isPrefix)

/-- The match as the number of its bytes and its keyword, said without the list of spellings. -/
theorem map_longestMatch?_eq_some_iff (law : table.Lawful) {n : Nat} {keyword : Keyword} :
    (table.longestMatch? text).map (fun found => (Text.byteLength found.text, found.keyword)) =
        some (n, keyword) ↔
      ∃ form rest, text = form ++ rest ∧ Text.byteLength form = n ∧
        keyword ∈ table.keywords ∧ form ∈ keyword.spellings ∧
        ∀ longer, longer <+: text → n < Text.byteLength longer →
          ∀ other ∈ table.keywords, longer ∉ other.spellings := by
  rw [Option.map_eq_some_iff]
  constructor
  · rintro ⟨⟨form, _⟩, hfound, ⟨⟩⟩
    obtain ⟨hs, ⟨rest, htext⟩, hlongest⟩ := (longestMatch?_eq_some_iff law).mp hfound
    obtain ⟨hk, hform⟩ := mem_spellings_iff.mp hs
    refine ⟨form, rest, htext.symm, rfl, hk, hform, fun longer hlonger hlt other ho ht => ?_⟩
    exact Nat.not_lt.mpr (hlongest ⟨longer, other⟩ (mem_spellings_iff.mpr ⟨ho, ht⟩) hlonger) hlt
  · rintro ⟨form, rest, rfl, rfl, hk, hform, hlongest⟩
    refine ⟨⟨form, keyword⟩, (longestMatch?_eq_some_iff law).mpr ?_, rfl⟩
    refine ⟨mem_spellings_iff.mpr ⟨hk, hform⟩, List.prefix_append .., fun other ho hother => ?_⟩
    obtain ⟨hk', ht⟩ := mem_spellings_iff.mp ho
    exact Nat.not_lt.mp fun hlt => hlongest other.text hother hlt other.keyword hk' ht

/-- There is no match if and only if no spelling stands in front of the text. -/
theorem longestMatch?_eq_none_iff (law : table.Lawful) :
    table.longestMatch? text = none ↔
      ∀ form, form <+: text → ∀ keyword ∈ table.keywords, form ∉ keyword.spellings := by
  constructor
  · intro hnone form hfront keyword hk ht
    have hs : ⟨form, keyword⟩ ∈ table.spellings := mem_spellings_iff.mpr ⟨hk, ht⟩
    rcases matchWithin?_spec law text (min table.longestSpelling (Text.byteLength text)) with
      ⟨found, heq, -⟩ | ⟨-, h⟩
    · rw [longestMatch?, heq] at hnone
      contradiction
    · exact Nat.not_lt.mpr (byteLength_le_limit hs hfront) (h _ hs hfront)
  · intro h
    rw [Option.eq_none_iff_forall_ne_some]
    intro spelling hfound
    obtain ⟨hs, hfront, -⟩ := (longestMatch?_eq_some_iff law).mp hfound
    obtain ⟨hk, ht⟩ := mem_spellings_iff.mp hs
    exact h spelling.text hfront spelling.keyword hk ht

end PocketBasic.Keyword.Table
