import PocketBasic.Proofs.Lexeme.Respelled

/-! Clashes of compact spellings. A compact listing writes keywords next to each other without
blanks, and spells some abbreviations out, since their periods make them no shorter than the name.
Such a name may run into its neighbours (`Clashes`). It is the only thing that can go wrong: the
scanner reads the lexemes in their compact spelling if and only if none of them clash
(`Scans.map_compacted`, `Clashes.not_scans`). -/

namespace PocketBasic.Lexeme

variable {table : Keyword.Table} {place place' : Place} {lexeme : Lexeme} {lexemes : List Lexeme}
  {keyword : Keyword} {rest : List Char}

/-- The lexeme is abbreviated, and the compact spelling of its keyword is the name. -/
structure SpelledOut (table : Keyword.Table) (lexeme : Lexeme) (keyword : Keyword) : Prop where
  found : lexeme.keyword? table = some keyword
  abbreviated : lexeme.text ≠ keyword.name
  compactForm_eq : keyword.compactForm = keyword.name

/-- In the compact listing of the lexemes, a name that is spelled out runs into its neighbours. -/
inductive Clashes (table : Keyword.Table) : List Lexeme → Prop where
  /-- A `REM` starts in the name. -/
  | rem {lexeme : Lexeme} {lexemes : List Lexeme} {keyword : Keyword} {i : Nat}
      (h : SpelledOut table lexeme keyword) (hi : i < keyword.name.length)
      (hrem : remWord <+: (keyword.name ++ lexemes.flatMap (compactForm table)).drop i) :
      Clashes table (lexeme :: lexemes)
  /-- The letter in front of the name makes a longer name of it. -/
  | letter {c : Char} {lexeme : Lexeme} {lexemes : List Lexeme} {keyword longer : Keyword}
      (h : SpelledOut table lexeme keyword) (hlonger : longer ∈ table.keywords)
      (hlength : keyword.name.length < longer.name.length)
      (hfront : longer.name <+: c :: (keyword.name ++ lexemes.flatMap (compactForm table))) :
      Clashes table (⟨.identifier, [c]⟩ :: lexeme :: lexemes)
  | later {lexeme : Lexeme} {lexemes : List Lexeme} (h : Clashes table lexemes) :
      Clashes table (lexeme :: lexemes)

theorem SpelledOut.respelled (law : table.Lawful) (h : SpelledOut table lexeme keyword)
    (first : Opens table place lexeme rest) : Respelled table lexeme keyword := by
  obtain ⟨hk, hmem⟩ := first.keyword?_eq_some law h.found
  refine ⟨hk, h.found, hmem, ?_⟩
  rw [h.compactForm_eq]
  exact h.abbreviated

theorem Respelled.spelledOut (h : Respelled table lexeme keyword)
    (hform : keyword.compactForm = keyword.name) : SpelledOut table lexeme keyword :=
  ⟨h.found, hform ▸ h.ne, hform⟩

/-! ### Without clashes -/

theorem compacted_eq (h : lexeme.compactForm table = lexeme.text) :
    compacted table lexeme = lexeme := by
  rw [compacted, h]

theorem Opens.isRem_compacted (terse : table.Terse) (first : Opens table place lexeme rest) :
    (compacted table lexeme).isRem = lexeme.isRem := by
  rcases first.compactForm_eq_or terse.toLawful with heq | ⟨keyword, h⟩
  · rw [compacted_eq heq]
  · rw [h.isRem_eq terse, Bool.eq_false_iff]
    intro hisRem
    apply h.not_remWord terse
    rw [← h.compactForm_eq]
    exact (isRem_iff.mp hisRem).2 ▸ List.infix_rfl

theorem Opens.placeAfter_compacted (terse : table.Terse) (first : Opens table place lexeme rest) :
    (compacted table lexeme).placeAfter = lexeme.placeAfter := by
  rw [placeAfter, placeAfter, first.isRem_compacted terse]
  rfl

/-- The lexemes stay what they are up to the first keyword that is respelled. -/
theorem Scans.first_respelled (law : table.Lawful) (scans : Scans table place lexemes) :
    lexemes.map (compacted table) = lexemes ∨ ∃ before lexeme after keyword,
      lexemes = before ++ lexeme :: after ∧ before.map (compacted table) = before ∧
        Respelled table lexeme keyword := by
  induction scans with
  | nil => exact .inl rfl
  | @cons place lexeme lexemes first others ih =>
    rcases first.compactForm_eq_or law with heq | ⟨keyword, h⟩
    · rcases ih with hsame | ⟨before, other, after, keyword, rfl, hbefore, h⟩
      · left
        rw [List.map_cons, compacted_eq heq, hsame]
      · refine .inr ⟨lexeme :: before, other, after, keyword, rfl, ?_, h⟩
        rw [List.map_cons, compacted_eq heq, hbefore]
    · exact .inr ⟨[], lexeme, lexemes, keyword, rfl, rfl, h⟩

theorem Opens.wordless (first : Opens table place lexeme rest) (h : lexeme.kind = .identifier) :
    Wordless table (lexeme.text ++ rest) := by
  cases first with
  | identifier _ _ _ _ hwordless => exact hwordless
  | crlf | cr | lf | remark | lineNumber | number | fractional | string | comment | rem | keyword
    | pair | mark => contradiction

/-- A word that is written in its compact spelling is not a bare abbreviation. -/
theorem Opens.ne_abbreviation (terse : table.Terse) (first : Opens table place lexeme rest)
    (hword : lexeme.kind = .keyword ∨ lexeme.kind = .identifier)
    (hform : lexeme.compactForm table = lexeme.text) (hk : keyword ∈ table.keywords)
    (has : keyword.hasAbbreviation = true) (hlen : 2 ≤ keyword.abbreviation.length) :
    lexeme.text ≠ keyword.abbreviation := by
  intro htext
  have hmem := (terse.regular hk).abbreviation_mem_spellings has hlen
  rw [← htext] at hmem
  rcases hword with hkind | hkind
  · have hfound : lexeme.keyword? table = some keyword := by
      rw [keyword?_of_kind hkind]
      exact terse.lookup?_eq hk hmem
    rw [compactForm_of_some hfound, htext] at hform
    exact terse.compactForm_ne_abbreviation hk has hform
  · have bounded := first.bounded terse.toLawful (.inr hkind) (by simp [isRem, hkind])
    apply (first.wordless hkind).not_stands lexeme.text ⟨keyword, hk, hmem⟩
    exact ⟨List.prefix_append .., fun i _ hi => bounded.not_rem i hi⟩

/-- Only an identifier is a word of one letter. -/
theorem Opens.eq_identifier (law : table.Lawful) (first : Opens table place lexeme rest)
    (hword : lexeme.kind = .keyword ∨ lexeme.kind = .identifier) (hone : lexeme.text.length = 1) :
    ∃ c, lexeme = ⟨.identifier, [c]⟩ := by
  obtain ⟨c, hc⟩ := List.length_eq_one_iff.mp hone
  rcases hword with hkind | hkind
  · rcases first.remWord_or_spells hkind with hrem | ⟨keyword, hk, hmem⟩
    · simp [hrem, remWord] at hone
    · have := (law.regular hk).two_le_length_of_mem hmem
      omega
  · exact ⟨c, by rw [← hc, ← hkind]⟩

theorem Scans.eq_nil_of_written (law : table.Lawful) {after : List Lexeme}
    (scans : Scans table place (lexemes ++ after)) (h : written lexemes = []) : lexemes = [] := by
  cases lexemes with
  | nil => rfl
  | cons lexeme lexemes =>
    cases scans with
    | cons first _ =>
      exact absurd (List.append_eq_nil_iff.mp h).1 (first.text_ne_nil law)

/-- In front of lexemes in their compact spelling, a lexeme that has its own is read as before. -/
theorem Opens.front_compacted (terse : table.Terse) (first : Opens table place lexeme
      (written lexemes)) (others : Scans table lexeme.placeAfter lexemes)
    (hform : lexeme.compactForm table = lexeme.text) (clear : ¬ Clashes table (lexeme :: lexemes)) :
    Opens table place lexeme (written (lexemes.map (compacted table))) := by
  rcases others.first_respelled terse.toLawful with
    hsame | ⟨before, other, after, keyword, rfl, hbefore, h⟩
  · rw [hsame]
    exact first
  have hwritten : written ((before ++ other :: after).map (compacted table)) =
      written before ++ keyword.compactForm ++ after.flatMap (compactForm table) := by
    rw [List.map_append, hbefore, List.map_cons, written_append, written_cons, written_compacted,
      compacted, h.compactForm_eq, List.append_assoc]
  rw [hwritten]
  refine first.congr terse.toLawful (h.sameFront terse before after _) fun hword hrem => ?_
  refine (h.shared terse others _).bounded terse h.mem (h.hasAbbreviation terse)
    (first.bounded terse.toLawful hword hrem) (first.text_ne_nil terse.toLawful)
    (fun _ ho has hlen => first.ne_abbreviation terse hword hform ho has hlen) ?_
  intro hname hone hnil longer hlonger hlength hfront
  apply clear
  obtain rfl := others.eq_nil_of_written terse.toLawful hnil
  obtain ⟨d, rfl⟩ := first.eq_identifier terse.toLawful hword hone
  refine .letter (h.spelledOut hname) hlonger hlength ?_
  rw [hname] at hfront
  exact hfront

/-- Lexemes that do not clash are read in their compact spelling too. -/
theorem Scans.map_compacted (terse : table.Terse) (scans : Scans table place lexemes)
    (clear : ¬ Clashes table lexemes) : Scans table place (lexemes.map (compacted table)) := by
  induction scans with
  | nil => exact .nil
  | @cons place lexeme lexemes first others ih =>
    have hothers := ih fun clash => clear (.later clash)
    rw [← first.placeAfter_compacted terse] at hothers
    refine .cons ?_ hothers
    rcases first.compactForm_eq_or terse.toLawful with hform | ⟨keyword, h⟩
    · rw [compacted_eq hform]
      exact first.front_compacted terse others hform clear
    · have hkind := kind_of_keyword? h.found
      have bounded : Bounded table keyword.compactForm (lexemes.flatMap (compactForm table)) :=
        h.bounded terse fun hname i hi hrem => clear (.rem (h.spelledOut hname) hi hrem)
      rw [Lexeme.compacted, hkind, h.compactForm_eq, written_compacted]
      apply bounded.opens (first.place_ne (by simp [hkind]) (by simp [hkind]))
      · exact ⟨keyword, h.mem, terse.compactForm_mem h.mem⟩
      · exact (terse.regular h.mem).ne_nil_of_mem (terse.compactForm_mem h.mem)

/-! ### With clashes -/

/-- A longer name that a letter makes stands where it is made. -/
theorem stands_longer (terse : table.Terse) {longer : Keyword} {c : Char}
    (hk : keyword ∈ table.keywords) (has : keyword.hasAbbreviation = true)
    (hform : keyword.compactForm = keyword.name) (hlonger : longer ∈ table.keywords)
    (hlength : keyword.name.length < longer.name.length)
    (hfront : longer.name <+: c :: (keyword.name ++ rest))
    (hrem : ∀ i < keyword.name.length, ¬ remWord <+: (keyword.name ++ rest).drop i) :
    Stands longer.name (c :: (keyword.name ++ rest)) := by
  obtain ⟨u, hu, hlast⟩ := terse.exists_last_of_compactForm_eq hk has hform
  have hlen : keyword.name.length = keyword.abbreviation.length + 1 := by
    rw [hlast, List.length_append, List.length_singleton]
  have hin : keyword.name <+: longer.name.drop 1 := by
    have hrest : longer.name.drop 1 <+: keyword.name ++ rest := hfront.drop 1
    refine List.prefix_of_prefix_length_le (List.prefix_append ..) hrest ?_
    rw [List.length_drop]
    omega
  have hne : keyword.name ≠ longer.name := fun heq => absurd hlength (by simp [heq])
  obtain ⟨-, -, hletters, -⟩ := terse.within hk hlonger hlen hne (by omega) hin
  refine ⟨hfront, fun i hpos hi hstarts => ?_⟩
  obtain ⟨j, rfl⟩ := Nat.exists_eq_add_of_le' hpos
  rw [List.drop_succ_cons] at hstarts
  by_cases hj : j < keyword.name.length
  · exact hrem j hj hstarts
  · apply hletters rfl
    obtain ⟨more, hmore⟩ := hfront
    obtain ⟨others, hothers⟩ := hstarts
    have hat : longer.name[j + 1]? = some 'R' := by
      rw [← List.getElem?_append_left hi, hmore, List.getElem?_cons_succ, ← Nat.add_zero j,
        ← List.getElem?_drop, ← hothers]
      rfl
    obtain ⟨k, rfl⟩ := Nat.exists_eq_add_of_le (Nat.le_of_not_lt hj)
    apply List.mem_of_getElem? (i := k)
    rw [List.getElem?_drop, Nat.add_assoc, Nat.add_comm 1, hat]

/-- A keyword that its compact spelling spells out is bounded in its name, where it is read in that
spelling too. -/
theorem SpelledOut.bounded_name (terse : table.Terse) (h : SpelledOut table lexeme keyword)
    (first : Opens table place lexeme (written lexemes))
    (compactFirst : Opens table place' (compacted table lexeme)
      (written (lexemes.map (compacted table)))) :
    (compacted table lexeme).text = keyword.name ∧
      Bounded table keyword.name (lexemes.flatMap (compactForm table)) := by
  have respelled := h.respelled terse.toLawful first
  have htext : (compacted table lexeme).text = keyword.name :=
    respelled.compactForm_eq.trans h.compactForm_eq
  have hkind : lexeme.kind = .keyword := kind_of_keyword? h.found
  have hrem : (compacted table lexeme).isRem = false := by
    rw [first.isRem_compacted terse]
    exact respelled.isRem_eq terse
  have bounded := compactFirst.bounded terse.toLawful (.inl hkind) hrem
  rw [htext, written_compacted] at bounded
  exact ⟨htext, bounded⟩

/-- Lexemes that clash are not read in their compact spelling. -/
theorem Clashes.not_scans (terse : table.Terse) (scans : Scans table place lexemes)
    (clash : Clashes table lexemes) : ¬ Scans table place (lexemes.map (compacted table)) := by
  intro compactScans
  induction clash generalizing place with
  | rem h hi hrem =>
    cases scans with
    | cons first others =>
    cases compactScans with
    | cons first' others' => exact (h.bounded_name terse first first').2.not_rem _ hi hrem
  | @letter c lexeme lexemes keyword longer h hlonger hlength hfront =>
    cases scans with
    | cons letter others =>
    cases compactScans with
    | cons letter' others' =>
    cases others with
    | cons first _ =>
    cases others' with
    | cons first' _ =>
      obtain ⟨htext, bounded⟩ := h.bounded_name terse first first'
      have respelled := h.respelled terse.toLawful first
      have stands := stands_longer terse respelled.mem (respelled.hasAbbreviation terse)
        h.compactForm_eq hlonger hlength hfront bounded.not_rem
      have hspells : table.Spells longer.name :=
        ⟨longer, hlonger, (terse.regular hlonger).name_mem_spellings⟩
      apply (letter'.wordless rfl).not_stands longer.name hspells
      rw [List.map_cons, written_cons, htext, written_compacted]
      exact stands
  | later h ih =>
    cases scans with
    | cons first others =>
    cases compactScans with
    | cons first' others' =>
      rw [first.placeAfter_compacted terse] at others'
      exact ih others others'

end PocketBasic.Lexeme
