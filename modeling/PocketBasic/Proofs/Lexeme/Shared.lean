import PocketBasic.Proofs.Keyword.Terse
import PocketBasic.Proofs.Lexeme.Context

/-! Texts that part in the middle of a keyword, where one of them has its compact spelling and the
other one does not. A word in front of both sees the same letters up to there (`Shared`), and what
it sees behind that is a period, a hash, or the last letter of a name that is spelled out. So it
stays bounded, unless it is a letter that makes a longer name of this one (`Shared.bounded`). -/

namespace PocketBasic.Lexeme

variable {table : Keyword.Table} {front text word rest rest' : List Char}

theorem Stands.of_isPrefix {a : List Char} (h : a <+: word) (stands : Stands word text) :
    Stands a text :=
  ⟨h.trans stands.isPrefix, fun i hpos hi =>
    stands.uninterrupted i hpos (Nat.lt_of_lt_of_le hi h.length_le)⟩

/-- The texts have the front in common, and a `REM` of the first one that starts in it ends in it
too, as does an `EM` at the start of the second one. -/
structure Shared (front rest rest' : List Char) : Prop where
  ne_nil : front ≠ []
  left : front <+: rest
  right : front <+: rest'
  not_rem : ∀ i < front.length, remWord <+: rest.drop i → remWord <+: front.drop i
  not_em : ['E', 'M'] <+: rest' → ['E', 'M'] <+: front

namespace Shared

/-- A `REM` that starts in front of the second text starts in front of the first one too. -/
theorem remWord_isPrefix (shared : Shared front rest rest') (hne : text ≠ [])
    (h : remWord <+: text ++ rest') : remWord <+: text ++ rest := by
  obtain ⟨more, hmore⟩ := h
  match text, hne with
  | [c], _ =>
    obtain ⟨rfl, hrest⟩ := List.cons.inj hmore
    have hem : ['E', 'M'] <+: rest' := ⟨more, hrest⟩
    obtain ⟨after, rfl⟩ := (shared.not_em hem).trans shared.left
    exact ⟨after, rfl⟩
  | [c, d], _ =>
    obtain ⟨rfl, hafter⟩ := List.cons.inj hmore
    obtain ⟨rfl, hrest⟩ := List.cons.inj hafter
    cases front with
    | nil => exact absurd rfl shared.ne_nil
    | cons m front =>
      obtain ⟨after', heq'⟩ := shared.right
      obtain ⟨after, rfl⟩ := shared.left
      obtain rfl : 'M' = m := (List.cons.inj (hrest.trans heq'.symm)).1
      exact ⟨front ++ after, rfl⟩
  | c :: d :: e :: text, _ =>
    obtain ⟨rfl, hafter⟩ := List.cons.inj hmore
    obtain ⟨rfl, hlast⟩ := List.cons.inj hafter
    obtain ⟨rfl, -⟩ := List.cons.inj hlast
    exact ⟨text ++ rest, rfl⟩

theorem not_rem_drop (shared : Shared front rest rest')
    (h : ∀ i < text.length, ¬ remWord <+: (text ++ rest).drop i) :
    ∀ i < text.length, ¬ remWord <+: (text ++ rest').drop i := by
  intro i hi hrem
  apply h i hi
  rw [List.drop_append_of_le_length (Nat.le_of_lt hi)] at hrem ⊢
  apply shared.remWord_isPrefix _ hrem
  intro hnil
  rw [List.drop_eq_nil_iff] at hnil
  omega

/-- A word that ends in what the texts have in common is bounded in both of them. -/
theorem length_le (shared : Shared front rest rest') (bounded : Bounded table text rest)
    (hspells : table.Spells word) (stands : Stands word (text ++ rest'))
    (hle : word.length ≤ (text ++ front).length) : word.length ≤ text.length := by
  have hpre : word <+: text ++ front :=
    List.prefix_of_prefix_length_le stands.isPrefix
      ((List.prefix_append_right_inj text).mpr shared.right) hle
  apply bounded.longest word hspells
  refine ⟨hpre.trans ((List.prefix_append_right_inj text).mpr shared.left), ?_⟩
  intro i hpos hi hrem
  by_cases htext : i < text.length
  · exact bounded.not_rem i htext hrem
  · obtain ⟨j, rfl⟩ := Nat.exists_eq_add_of_le (Nat.le_of_not_lt htext)
    rw [List.length_append] at hle
    rw [List.drop_length_add_append] at hrem
    have hfront := shared.not_rem j (by omega) hrem
    apply stands.uninterrupted _ hpos hi
    rw [List.drop_length_add_append]
    exact hfront.trans (shared.right.drop j)

end Shared

/-! ### What stands behind the front -/

section
variable {keyword other : Keyword} {sign : Char}

/-- A spelling with a sign after a capital is a name, or an abbreviation ends with the capital. -/
theorem eq_name_or_abbreviation (reg : other.Regular) (hword : word ∈ other.spellings)
    {letter : Char} {others : List Char} (hsign : sign.isUpper = false)
    (hletter : letter.isUpper = true) (h : front ++ [letter] ++ sign :: others = word) :
    word = other.name ∨
      other.hasAbbreviation = true ∧ other.abbreviation = front ++ [letter] := by
  rcases reg.exists_signs hword with rfl | ⟨has, signs, hsigns, rfl⟩
  · exact .inl rfl
  right
  refine ⟨has, ?_⟩
  rcases List.append_eq_append_iff.mp h with ⟨beyond, hbeyond, hrest⟩ | ⟨beyond, hbeyond, hrest⟩
  · cases beyond with
    | nil => rw [hbeyond, List.append_nil]
    | cons c beyond =>
      have hc : sign = c := (List.cons.inj hrest).1
      have := reg.isUpper_abbreviation has c (by simp [hbeyond])
      rw [← hc, hsign] at this
      contradiction
  · rcases List.eq_nil_or_concat beyond with rfl | ⟨beyond, c, rfl⟩
    · rw [← hbeyond.trans (List.append_nil _)]
    · rw [List.concat_eq_append, ← List.append_assoc] at hbeyond
      obtain ⟨-, hlast⟩ := List.append_inj' hbeyond rfl
      have hmem : letter ∈ signs := by
        rw [hrest, List.singleton_inj.mp hlast]
        simp
      rw [hsigns letter hmem] at hletter
      contradiction

variable {before after : List Char}

/-- Where the second text goes on with a period or a hash, no word but a name goes on too. -/
theorem Shared.eq_name_of_sign (terse : table.Terse) (hk : keyword ∈ table.keywords)
    (has : keyword.hasAbbreviation = true)
    (shared : Shared (before ++ keyword.abbreviation) rest rest')
    (bounded : Bounded table text rest) (hne : text ≠ []) (ho : other ∈ table.keywords)
    (hword : word ∈ other.spellings) (stands : Stands word (text ++ rest'))
    {others : List Char} (hsign : sign.isUpper = false)
    (h : text ++ (before ++ keyword.abbreviation) ++ sign :: others = word) :
    word = other.name := by
  have hpos := List.length_pos_of_ne_nil hne
  have hshort := List.length_pos_of_ne_nil (terse.regular hk).abbreviation_ne_nil
  rcases List.eq_nil_or_concat keyword.abbreviation with hnil | ⟨letters, letter, hlast⟩
  · exact absurd hnil (terse.regular hk).abbreviation_ne_nil
  rw [List.concat_eq_append] at hlast
  have hletter : letter.isUpper = true :=
    (terse.regular hk).isUpper_abbreviation has letter (by simp [hlast])
  have hcut : text ++ (before ++ letters) ++ [letter] ++ sign :: others = word := by
    rw [← h, hlast]
    simp only [List.append_assoc]
  rcases eq_name_or_abbreviation (terse.regular ho) hword hsign hletter hcut with
    hname | ⟨hasOther, habbreviation⟩
  · exact hname
  -- The abbreviation stands in front of the first text too, where it is longer than what is there.
  have hshared : other.abbreviation = text ++ (before ++ keyword.abbreviation) := by
    rw [habbreviation, hlast]
    simp only [List.append_assoc]
  have hlen := congrArg List.length hshared
  rw [List.length_append, List.length_append] at hlen
  have hmem := (terse.regular ho).abbreviation_mem_spellings hasOther (by omega)
  have hpre : other.abbreviation <+: word := ⟨sign :: others, by rw [hshared, h]⟩
  have hle := shared.length_le bounded ⟨other, ho, hmem⟩ (stands.of_isPrefix hpre)
    (Nat.le_of_eq (congrArg List.length hshared))
  omega

/-- No word goes on over the name of the keyword that is spelled out in the second text. -/
theorem Shared.not_name (terse : table.Terse) (hk : keyword ∈ table.keywords)
    (shared : Shared (before ++ keyword.abbreviation) rest rest')
    (bounded : Bounded table text rest) (hne : text ≠ []) (ho : other ∈ table.keywords)
    (hword : word ∈ other.spellings) (stands : Stands word (text ++ rest')) {u : Char}
    (hu : u ≠ '#') (hname : keyword.name = keyword.abbreviation ++ [u])
    (h : text ++ before ++ keyword.name <+: word)
    (hbare : other.hasAbbreviation = true → 2 ≤ other.abbreviation.length →
      text ≠ other.abbreviation)
    (hletter : text.length = 1 → before = [] → keyword.name.length < other.name.length →
      ¬ other.name <+: text ++ rest') : False := by
  have hpos := List.length_pos_of_ne_nil hne
  obtain ⟨more, hmore⟩ := h
  have hin : keyword.name <+: word.drop (text ++ before).length := by
    rw [← hmore, List.append_assoc, List.drop_left]
    exact List.prefix_append ..
  rw [List.length_append] at hin
  obtain ⟨rfl, ⟨hzero, -⟩ | hwithin⟩ := terse.eq_name_of_within hk ho hu hname hword hin
  · omega
  obtain ⟨-, hends, -, hone | ⟨has, htwo, hcovers⟩⟩ := hwithin
  · have hbefore : before = [] := List.length_eq_zero_iff.mp (by omega)
    refine hletter (by omega) hbefore ?_ stands.isPrefix
    rw [← hmore, List.length_append, List.length_append, List.length_append]
    omega
  · have hends := hends has
    have hmem := (terse.regular ho).abbreviation_mem_spellings has htwo
    have hpre := (terse.regular ho).abbreviation_isPrefix
    have hle := shared.length_le bounded ⟨other, ho, hmem⟩ (stands.of_isPrefix hpre) (by
      rw [List.length_append, List.length_append]
      omega)
    apply hbare has htwo
    have htext : text <+: other.name := ⟨before ++ keyword.name ++ more, by simp [← hmore]⟩
    refine List.IsPrefix.eq_of_length ?_ (by omega)
    exact List.prefix_of_prefix_length_le htext hpre (by omega)

/-- A word is bounded in front of a compact spelling too, if it is not itself an abbreviation that
the compact spelling would mark, and not a letter that makes a longer name of a name. -/
theorem Shared.bounded (terse : table.Terse) (hk : keyword ∈ table.keywords)
    (has : keyword.hasAbbreviation = true)
    (shared : Shared (before ++ keyword.abbreviation) rest
      (before ++ keyword.compactForm ++ after))
    (bounded : Bounded table text rest) (hne : text ≠ [])
    (hbare : ∀ other ∈ table.keywords, other.hasAbbreviation = true →
      2 ≤ other.abbreviation.length → text ≠ other.abbreviation)
    (hletter : keyword.compactForm = keyword.name → text.length = 1 → before = [] →
      ∀ other ∈ table.keywords, keyword.name.length < other.name.length →
        ¬ other.name <+: text ++ (before ++ keyword.compactForm ++ after)) :
    Bounded table text (before ++ keyword.compactForm ++ after) := by
  refine ⟨shared.not_rem_drop bounded.not_rem, fun word hspells stands => ?_⟩
  apply Nat.le_of_not_lt
  intro hlong
  have hbeyond : (text ++ (before ++ keyword.abbreviation)).length < word.length :=
    Nat.lt_of_not_le fun hle =>
      absurd (shared.length_le bounded hspells stands hle) (Nat.not_le_of_lt hlong)
  obtain ⟨other, ho, hword⟩ := hspells
  have reg := terse.regular ho
  have goes {c : Char} {signs : List Char}
      (hform : keyword.compactForm = keyword.abbreviation ++ c :: signs) :
      text ++ (before ++ keyword.abbreviation) ++ [c] <+: word := by
    refine List.prefix_of_prefix_length_le ⟨signs ++ after, ?_⟩ stands.isPrefix ?_
    · simp [hform]
    · rw [List.length_append]
      exact hbeyond
  rcases terse.compactForm_cases hk has with hform | ⟨hash, hform⟩ | ⟨hform, u, hu, hname⟩
  · obtain ⟨others, hothers⟩ := goes hform
    rw [List.append_assoc] at hothers
    obtain rfl := shared.eq_name_of_sign terse hk has bounded hne ho hword stands (by decide) hothers
    exact reg.period_not_mem (by simp [← hothers])
  · obtain ⟨others, hothers⟩ := goes hform
    rw [List.append_assoc] at hothers
    obtain rfl := shared.eq_name_of_sign terse hk has bounded hne ho hword stands (by decide) hothers
    -- A hash can only end the name.
    rcases List.eq_nil_or_concat others with rfl | ⟨others, c, rfl⟩
    · exact terse.hash_once hk ho has hash ⟨text ++ before, by simp [← hothers]⟩
    · have := reg.isUpper_front '#' (by
        rw [← hothers, List.concat_eq_append, List.singleton_append, ← List.cons_append,
          ← List.append_assoc, List.dropLast_concat]
        simp)
      contradiction
  · have hbeyond := goes (hform.trans hname)
    refine shared.not_name terse hk bounded hne ho hword stands hu hname ?_ (hbare other ho) ?_
    · rw [hname]
      simpa using hbeyond
    · exact fun hone hbefore => hletter hform hone hbefore other ho

end

end PocketBasic.Lexeme
