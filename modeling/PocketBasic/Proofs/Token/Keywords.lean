import PocketBasic.Proofs.Keyword.LongestMatch
import PocketBasic.Proofs.Lexeme.Respelled
import PocketBasic.Proofs.Token.Lexemes

/-! The keywords among the tokens. A scan takes the longest match in the text up to the next `REM`
(`keywordAt?_eq_longestMatch?`), letter by letter, and says only how long it is. Whoever asks for
the keyword of the token later on looks its text up in any case, and is given the keyword that was
matched (`match_eq_lookup`). -/

namespace PocketBasic

namespace Lexeme

open Keyword (Spelling)

variable {table : Keyword.Table} {spelling : Spelling} {word text rest : List Char} {c : Char}
  {n : Nat}

/-- What stands in front of the first `REM` that starts within the first `n` bytes of a text. The
text is left whole if there is none. -/
def cutRem : List Char → Nat → List Char
  | [], _ => []
  | c :: rest, 0 => c :: rest
  | c :: rest, n + 1 =>
    if startsRem (c :: rest) then [] else c :: cutRem rest (n + 1 - c.utf8Size)

/-- The front of a text in which a keyword is searched for. It ends at the next `REM` after its
first character. A `REM` that is further away than the longest spelling is not looked for. -/
def searched (table : Keyword.Table) : List Char → List Char
  | [] => []
  | c :: rest => c :: cutRem rest (table.longestSpelling - c.utf8Size)

/-- A word of at most `n` bytes is left whole if no `REM` starts inside of it. -/
theorem prefix_cutRem_iff (h : Text.byteLength word ≤ n) :
    word <+: cutRem text n ↔ word <+: text ∧ ∀ i < word.length, ¬ remWord <+: text.drop i := by
  fun_induction cutRem text n generalizing word with
  | case1 n =>
    refine (and_iff_left fun i _ => ?_).symm
    simp [remWord]
  | case2 c rest =>
    cases word with
    | nil => simp
    | cons d word =>
      have := d.utf8Size_pos
      rw [Text.byteLength_cons] at h
      omega
  | case3 c rest n hrem =>
    cases word with
    | nil => simp
    | cons d word =>
      refine iff_of_false (by simp) fun h => ?_
      exact h.2 0 (Nat.zero_lt_succ _) (startsRem_iff.mp hrem)
  | case4 c rest n hrem ih =>
    cases word with
    | nil => simp
    | cons d word =>
      rw [List.cons_prefix_cons, List.cons_prefix_cons, and_assoc]
      refine and_congr_right fun hd => ?_
      subst hd
      rw [Text.byteLength_cons] at h
      rw [ih (by omega)]
      refine and_congr_right fun _ => ⟨fun hnot i hi => ?_, fun hnot i hi => ?_⟩
      · cases i with
        | zero => exact fun hpre => hrem (startsRem_iff.mpr hpre)
        | succ i => exact hnot i (Nat.lt_of_succ_lt_succ hi)
      · exact hnot (i + 1) (Nat.succ_lt_succ hi)

/-- A spelling stands in front of a text if and only if it is found in what is searched. -/
theorem stands_iff_prefix_searched (law : table.Lawful) (hs : spelling ∈ table.spellings) :
    Stands spelling.text text ↔ spelling.text <+: searched table text := by
  have hle := Keyword.Table.byteLength_le_longestSpelling hs
  have hpos := law.byteLength_pos hs
  cases hword : spelling.text with
  | nil => simp [hword] at hpos
  | cons d word =>
    rw [hword, Text.byteLength_cons] at hle
    cases text with
    | nil => exact iff_of_false (fun h => by simpa using h.isPrefix) (by simp [searched])
    | cons c rest =>
      rw [searched, List.cons_prefix_cons]
      constructor
      · rintro ⟨hfront, hnot⟩
        obtain ⟨rfl, hrest⟩ := List.cons_prefix_cons.mp hfront
        refine ⟨rfl, (prefix_cutRem_iff (by omega)).mpr ⟨hrest, fun i hi => ?_⟩⟩
        exact hnot (i + 1) (Nat.succ_pos i) (Nat.succ_lt_succ hi)
      · rintro ⟨rfl, hcut⟩
        obtain ⟨hrest, hnot⟩ := (prefix_cutRem_iff (by omega)).mp hcut
        refine ⟨List.cons_prefix_cons.mpr ⟨rfl, hrest⟩, fun i hpos hi => ?_⟩
        obtain ⟨i, rfl⟩ := Nat.exists_eq_add_one_of_ne_zero (Nat.ne_of_gt hpos)
        exact hnot i (Nat.lt_of_succ_lt_succ hi)

theorem keywordAt?_eq_some_iff (law : table.Lawful) :
    keywordAt? table text = some spelling ↔
      spelling ∈ table.spellings ∧ Stands spelling.text text ∧
        ∀ word, table.Spells word → Stands word text → word.length ≤ spelling.text.length := by
  constructor
  · intro h
    exact ⟨(List.mem_filter.mp (length_le_of_longest? h).1).1, (keywordAt?_eq_some h).2⟩
  · rintro ⟨hs, hstands, hlongest⟩
    obtain ⟨found, heq, htext⟩ := exists_keywordAt?
      (Keyword.Table.spells_iff.mpr ⟨spelling, hs, rfl⟩) hstands hlongest
    have hfound := (List.mem_filter.mp (length_le_of_longest? heq).1).1
    rw [heq, law.eq_of_text_eq hfound hs htext]

/-- A scan finds the longest match in front of the next `REM`. -/
theorem keywordAt?_eq_longestMatch? (law : table.Lawful) (text : List Char) :
    keywordAt? table text = table.longestMatch? (searched table text) := by
  refine Option.ext fun spelling => ?_
  rw [keywordAt?_eq_some_iff law, Keyword.Table.longestMatch?_eq_some_iff law]
  refine and_congr_right fun hs => ?_
  rw [stands_iff_prefix_searched law hs]
  refine and_congr_right fun _ => ?_
  have length_eq {other : Spelling} (ho : other ∈ table.spellings) :
      Text.byteLength other.text = other.text.length :=
    byteLength_of_isSpellingChar (law.isSpellingChar ho)
  constructor
  · intro hlongest other ho hother
    rw [length_eq ho, length_eq hs]
    exact hlongest other.text (Keyword.Table.spells_iff.mpr ⟨other, ho, rfl⟩)
      ((stands_iff_prefix_searched law ho).mpr hother)
  · intro hlongest word hword hstands
    obtain ⟨other, ho, rfl⟩ := Keyword.Table.spells_iff.mp hword
    rw [← length_eq ho, ← length_eq hs]
    exact hlongest other ho ((stands_iff_prefix_searched law ho).mp hstands)

/-- A keyword that is read is a `REM`, or the longest match in front of the text. -/
theorem Opens.eq_remWord_or_keywordAt? {place : Place} {lexeme : Lexeme}
    (first : Opens table place lexeme rest) (hkind : lexeme.kind = .keyword) :
    lexeme.text = remWord ∨ ∃ keyword ∈ table.keywords, lexeme.text ∈ keyword.spellings ∧
      keywordAt? table (lexeme.text ++ rest) = some ⟨lexeme.text, keyword⟩ := by
  cases first with
  | rem => exact .inl rfl
  | @keyword _ text _ _ hspells _ hstands hlongest =>
    obtain ⟨⟨text, keyword⟩, heq, rfl⟩ := exists_keywordAt? hspells hstands hlongest
    have hmem := (List.mem_filter.mp (length_le_of_longest? heq).1).1
    obtain ⟨hk, ht⟩ := Keyword.Table.mem_spellings_iff.mp hmem
    exact .inr ⟨keyword, hk, ht, heq⟩
  | crlf | cr | lf | remark | lineNumber | number | fractional | string | comment | pair | mark
    | identifier => contradiction

end Lexeme

namespace Token

open Lexeme

variable {table : Keyword.Table} {text : List Char} {token : Token} {front back : List Token}

/-- A token is read in front of the texts of the tokens after it. -/
theorem exists_opens (law : table.Lawful) (h : tokenize table text = front ++ token :: back)
    (hkind : token.kind ≠ .blank) :
    ∃ place, Opens table place token.toLexeme (back.flatMap (·.text)) := by
  have hne : Lexeme.ofText table text ≠ [] := by
    rw [← lexemes_eq law, lexemes, h]
    simp [hkind]
  have hlexemes : Lexeme.ofText table text =
      front.map (·.toLexeme) ++ token.toLexeme :: back.map (·.toLexeme) := by
    rw [← map_toLexeme_tokenize hne, h, List.map_append, List.map_cons]
  obtain ⟨scans, -⟩ := Lexeme.ofText_spec law text
  rw [hlexemes] at scans
  obtain ⟨place, first, -⟩ := scans.exists_cons
  refine ⟨place, ?_⟩
  rwa [written, List.flatMap_map] at first

/-- Matching and looking up agree. The longest match in front of a text is a spelling of the keyword
that it gives, no longer spelling stands there, and there is a match if any spelling does. A scan
takes the longest match in front of the next `REM`, and the keyword that it has found for a token is
the one as which the text of the token is looked up, in whatever case. The lookup fails for no token
but a `REM`. -/
theorem match_eq_lookup (tiers : List Tier) :
    let table := Keyword.Table.ofTiers tiers
    (∀ (text : List Char) (n : Nat) (keyword : Keyword),
      (table.longestMatch? text).map (fun found => (Text.byteLength found.text, found.keyword)) =
          some (n, keyword) ↔
        ∃ form rest, text = form ++ rest ∧ Text.byteLength form = n ∧
          keyword ∈ table.keywords ∧ form ∈ keyword.spellings ∧
          ∀ longer, longer <+: text → n < Text.byteLength longer →
            ∀ other ∈ table.keywords, longer ∉ other.spellings) ∧
    (∀ text, table.longestMatch? text = none ↔
      ∀ form, form <+: text → ∀ keyword ∈ table.keywords, form ∉ keyword.spellings) ∧
    (∀ text, keywordAt? table text = table.longestMatch? (searched table text)) ∧
    ∀ text front token back, tokenize table text = front ++ token :: back →
      token.kind = .keyword →
      (∀ keyword, table.lookup? token.text = some keyword ↔
        keyword ∈ table.keywords ∧ token.text ∈ keyword.spellings) ∧
      (table.lookup? token.text = none → token.text = remWord) ∧
      (token.text ≠ remWord → keywordAt? table (token.text ++ back.flatMap (·.text)) =
        (table.lookup? token.text).map (⟨token.text, ·⟩)) := by
  intro table
  have law : table.Lawful := Keyword.Table.lawful_ofTiers tiers
  refine ⟨fun _ _ _ => Keyword.Table.map_longestMatch?_eq_some_iff law,
    fun _ => Keyword.Table.longestMatch?_eq_none_iff law, keywordAt?_eq_longestMatch? law, ?_⟩
  intro text front token back h hkind
  obtain ⟨place, first⟩ := exists_opens law h (by simp [hkind])
  have found := first.eq_remWord_or_keywordAt? hkind
  refine ⟨fun keyword => ⟨fun hlookup => ?_, fun ⟨hk, ht⟩ => law.lookup?_eq hk ht⟩, ?_, ?_⟩
  · rw [← keyword?_of_kind hkind] at hlookup
    exact first.keyword?_eq_some law hlookup
  · rcases found with hrem | ⟨keyword, hk, ht, -⟩
    · exact fun _ => hrem
    · rw [law.lookup?_eq hk ht]
      exact nofun
  · rcases found with hrem | ⟨keyword, hk, ht, heq⟩
    · exact fun hne => absurd hrem hne
    · intro _
      rw [heq, law.lookup?_eq hk ht, Option.map_some]

end Token

end PocketBasic
