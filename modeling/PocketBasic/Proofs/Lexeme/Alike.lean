import Mathlib.Data.List.Forall2
import PocketBasic.Lexeme.Reading
import PocketBasic.Proofs.Lexeme.Modes

/-! Lexemes that are alike: they differ in the spelling of a keyword or in blanks only. Lexemes with
the same reading are. Lists of such lexemes that are written as the same text, blanks apart, are
cut in the same way (`contents_eq`): otherwise the ends of two lexemes would stay apart from the
first one that is spelled in two ways up to the end of the text, since no spelling of a keyword
stands inside of another one. -/

namespace PocketBasic

theorem Keyword.Regular.not_blank {keyword : Keyword} (reg : keyword.Regular)
    {text : List Char} (h : text ∈ keyword.spellings) : ∀ c ∈ text, Text.isBlank c = false :=
  fun c hc => (Lexeme.isPlain_of_isSpellingChar (reg.isSpellingChar_of_mem h c hc)).2

theorem Keyword.Regular.content_eq {keyword : Keyword} (reg : keyword.Regular)
    {text : List Char} (h : text ∈ keyword.spellings) : Text.content text = text :=
  Text.content_eq_self_iff.mpr (reg.not_blank h)

attribute [ext] Reading

namespace Lexeme

variable {table : Keyword.Table} {a b : Lexeme} {as bs : List Lexeme}

/-- The lexemes say the same up to blanks, or spell the same keyword. -/
inductive Alike (table : Keyword.Table) (a b : Lexeme) : Prop where
  | content (h : Text.content a.text = Text.content b.text)
  | spelling {keyword : Keyword} (hk : keyword ∈ table.keywords)
      (ha : a.text ∈ keyword.spellings) (hb : b.text ∈ keyword.spellings)

namespace Alike

theorem refl (a : Lexeme) : Alike table a a :=
  .content rfl

theorem symm (h : Alike table a b) : Alike table b a := by
  cases h with
  | content h => exact .content h.symm
  | spelling hk ha hb => exact .spelling hk hb ha

/-- Neither of two lexemes that are alike stands inside of the other one. -/
theorem not_isPrefix (law : table.Lawful) (h : Alike table a b) {before : List Char}
    (hne : before ≠ []) : ¬ before ++ Text.content a.text <+: Text.content b.text := by
  intro hpre
  cases h with
  | content h =>
    have hle := hpre.length_le
    rw [h, List.length_append] at hle
    have := List.length_pos_of_ne_nil hne
    omega
  | spelling hk ha hb =>
    rw [(law.regular hk).content_eq ha, (law.regular hk).content_eq hb] at hpre
    obtain ⟨after, heq⟩ := hpre
    refine (law.regular hk).not_infix_tail hb ha ⟨before.tail, after, ?_⟩
    rw [← heq, List.append_assoc, List.append_assoc, List.tail_append_of_ne_nil hne]

end Alike

theorem content_written_cons (a : Lexeme) (as : List Lexeme) :
    Text.content (written (a :: as)) = Text.content a.text ++ Text.content (written as) := by
  simp

/-- The ends of lexemes that are apart stay apart. -/
private theorem not_shifted (law : table.Lawful) (h : List.Forall₂ (Alike table) as bs)
    {shift : List Char} (hne : shift ≠ []) :
    Text.content (written bs) ≠ shift ++ Text.content (written as) := by
  induction h generalizing shift with
  | nil => simpa using hne.symm
  | @cons a b as bs hab _ ih =>
    rw [content_written_cons, content_written_cons, ← List.append_assoc]
    intro heq
    rcases List.append_eq_append_iff.mp heq with ⟨shift', hcut, hrest⟩ | ⟨beyond, hcut, _⟩
    · by_cases hnil : shift' = []
      · rw [hnil, List.append_nil] at hcut
        exact hab.not_isPrefix law hne (hcut ▸ List.prefix_rfl)
      · exact ih hnil hrest
    · exact hab.not_isPrefix law hne ⟨beyond, hcut.symm⟩

/-- Lexemes that are alike and are written as the same text, blanks apart, are the same one by
one. -/
theorem contents_eq (law : table.Lawful) (h : List.Forall₂ (Alike table) as bs)
    (heq : Text.content (written as) = Text.content (written bs)) :
    List.Forall₂ (fun a b => Text.content a.text = Text.content b.text) as bs := by
  induction h with
  | nil => exact .nil
  | @cons a b as bs hab habs ih =>
    rw [content_written_cons, content_written_cons] at heq
    rcases List.append_eq_append_iff.mp heq with ⟨beyond, hcut, hrest⟩ | ⟨beyond, hcut, hrest⟩
    · by_cases hnil : beyond = []
      · subst hnil
        exact .cons (by rw [hcut, List.append_nil]) (ih hrest)
      · exact absurd hrest (not_shifted law (List.Forall₂.flip (habs.imp fun _ _ h => h.symm)) hnil)
    · by_cases hnil : beyond = []
      · subst hnil
        exact .cons (by rw [hcut, List.append_nil]) (ih hrest.symm)
      · exact absurd hrest (not_shifted law habs hnil)

/-- Lexemes that are alike have the same digits in front. -/
theorem takeWhile_isDigit_eq (law : table.Lawful) (h : List.Forall₂ (Alike table) as bs) :
    (Text.content (written as)).takeWhile Char.isDigit =
      (Text.content (written bs)).takeWhile Char.isDigit := by
  induction h with
  | nil => rfl
  | @cons a b as bs hab _ ih =>
    rw [content_written_cons, content_written_cons]
    cases hab with
    | content h => rw [h, List.takeWhile_append, List.takeWhile_append, ih]
    | spelling hk ha hb =>
      have stops {text : List Char} {keyword : Keyword} (hk : keyword ∈ table.keywords)
          (h : text ∈ keyword.spellings) (rest : List Char) :
          (Text.content text ++ rest).takeWhile Char.isDigit = [] := by
        obtain ⟨c, others, heq, hc, -⟩ := (law.regular hk).exists_cons_of_mem h
        rw [(law.regular hk).content_eq h, heq, List.cons_append, List.takeWhile_cons,
          isDigit_of_isUpper hc]
        rfl
      rw [stops hk ha, stops hk hb]

/-! ### Readings -/

theorem keyword?_of_kind (h : a.kind = .keyword) : a.keyword? table = table.lookup? a.text := by
  rw [keyword?, if_pos h]

theorem keyword?_of_kind_ne (h : a.kind ≠ .keyword) : a.keyword? table = none := by
  rw [keyword?, if_neg h]

theorem kind_of_keyword? {keyword : Keyword} (h : a.keyword? table = some keyword) :
    a.kind = .keyword := by
  apply Decidable.byContradiction
  intro hne
  rw [keyword?_of_kind_ne hne] at h
  contradiction

theorem Opens.remWord_or_spells {place : Place} {rest : List Char}
    (first : Opens table place a rest) (h : a.kind = .keyword) :
    a.text = remWord ∨ table.Spells a.text := by
  cases first with
  | rem => exact .inl rfl
  | keyword _ hspells => exact .inr hspells
  | crlf | cr | lf | remark | lineNumber | number | fractional | string | comment | pair | mark
    | identifier => contradiction

/-- The keyword of a lexeme is one of the table that is spelled as the lexeme is. -/
theorem Opens.keyword?_eq_some (law : table.Lawful) {place : Place} {rest : List Char}
    (first : Opens table place a rest) {keyword : Keyword} (h : a.keyword? table = some keyword) :
    keyword ∈ table.keywords ∧ a.text ∈ keyword.spellings := by
  have hkind := kind_of_keyword? h
  rw [keyword?_of_kind hkind] at h
  obtain ⟨hk, htext⟩ := Keyword.Table.mem_of_lookup? h
  have hupper : Text.upper a.text = a.text := by
    rcases first.remWord_or_spells hkind with heq | hspells
    · rw [heq]
      exact upper_of_isSpellingChar (by decide)
    · exact upper_of_isSpellingChar (hspells.isSpellingChar law)
  exact ⟨hk, hupper ▸ htext⟩

theorem reading_text_of_keyword (h : a.kind = .keyword) :
    (a.reading table).text = (a.keyword? table).elim a.text Keyword.name := by
  simp only [reading, h]

theorem reading_text_of_comment (h : a.kind = .comment) :
    (a.reading table).text = Text.trimLeft a.text := by
  simp only [reading, h]

theorem reading_text_of_ne (hk : a.kind ≠ .keyword) (hc : a.kind ≠ .comment) :
    (a.reading table).text = a.text := by
  rw [reading]
  split
  next h => exact absurd h hk
  next h => exact absurd h hc
  next => rfl

theorem reading_congr (hkind : a.kind = b.kind)
    (hkeyword : a.kind = .keyword → (a.keyword? table).elim a.text Keyword.name =
      (b.keyword? table).elim b.text Keyword.name)
    (hother : a.kind ≠ .keyword → a.text = b.text) : a.reading table = b.reading table := by
  by_cases hk : a.kind = .keyword
  · have htext := hkeyword hk
    rw [← reading_text_of_keyword hk, ← reading_text_of_keyword (hkind ▸ hk)] at htext
    exact Reading.ext hkind htext
  · cases a
    cases b
    cases hkind
    cases hother hk
    rfl

section
variable {place place' : Place} {rest rest' : List Char}

/-- Lexemes with the same reading spell the same keyword, if they spell one. -/
theorem Opens.keyword?_eq_of_reading (law : table.Lawful) (ha : Opens table place a rest)
    (hb : Opens table place' b rest') (h : a.reading table = b.reading table) :
    a.keyword? table = b.keyword? table := by
  have hkind : a.kind = b.kind := congrArg Reading.kind h
  by_cases hk : a.kind = .keyword
  · have htext := congrArg Reading.text h
    rw [reading_text_of_keyword hk, reading_text_of_keyword (hkind ▸ hk)] at htext
    have found {c d : Lexeme} {keyword : Keyword} {p : Place} {r : List Char}
        (hd : Opens table p d r) (hkd : d.keyword? table = some keyword)
        (hkc : c.kind = .keyword) (htext : c.text = keyword.name) :
        c.keyword? table = some keyword := by
      obtain ⟨hmem, -⟩ := hd.keyword?_eq_some law hkd
      rw [keyword?_of_kind hkc, htext]
      exact law.lookup?_eq hmem (law.regular hmem).name_mem_spellings
    cases hka : a.keyword? table with
    | none =>
      cases hkb : b.keyword? table with
      | none => rfl
      | some keyword =>
        rw [hka, hkb] at htext
        rw [found hb hkb hk htext] at hka
        contradiction
    | some keyword =>
      cases hkb : b.keyword? table with
      | none =>
        rw [hka, hkb] at htext
        rw [found ha hka (hkind ▸ hk) htext.symm] at hkb
        contradiction
      | some other =>
        rw [hka, hkb] at htext
        obtain ⟨hmem, -⟩ := ha.keyword?_eq_some law hka
        obtain ⟨hmem', -⟩ := hb.keyword?_eq_some law hkb
        have name := (law.regular hmem).name_mem_spellings
        have name' := (law.regular hmem').name_mem_spellings
        rw [law.unique hmem hmem' name (by rwa [show keyword.name = other.name from htext])]
  · rw [keyword?_of_kind_ne hk, keyword?_of_kind_ne (hkind ▸ hk)]

/-- Lexemes with the same reading are alike. -/
theorem Opens.alike_of_reading (law : table.Lawful) (ha : Opens table place a rest)
    (hb : Opens table place' b rest') (h : a.reading table = b.reading table) :
    Alike table a b := by
  have hkind : a.kind = b.kind := congrArg Reading.kind h
  have htext := congrArg Reading.text h
  have hkeyword := ha.keyword?_eq_of_reading law hb h
  by_cases hk : a.kind = .keyword
  · cases hfound : a.keyword? table with
    | some keyword =>
      obtain ⟨hmem, hatext⟩ := ha.keyword?_eq_some law hfound
      obtain ⟨-, hbtext⟩ := hb.keyword?_eq_some law (hkeyword ▸ hfound)
      exact .spelling hmem hatext hbtext
    | none =>
      rw [reading_text_of_keyword hk, reading_text_of_keyword (hkind ▸ hk), ← hkeyword,
        hfound] at htext
      exact .content (congrArg Text.content htext)
  · by_cases hc : a.kind = .comment
    · rw [reading_text_of_comment hc, reading_text_of_comment (hkind ▸ hc)] at htext
      exact .content (by rw [← Text.content_trimLeft, htext, Text.content_trimLeft])
    · rw [reading_text_of_ne hk hc, reading_text_of_ne (hkind ▸ hk) (hkind ▸ hc)] at htext
      exact .content (congrArg Text.content htext)

end

/-- Two texts of which one view is the same are related lexeme by lexeme, if lexemes with the same
view are. -/
theorem Scans.forall₂_of_map_eq {α β : Type} {typed : α → Lexeme} {view : Lexeme → β}
    {R : α → Lexeme → Prop} {xs : List α} {place place' : Place}
    (related : ∀ {x b place place' rest rest'}, Opens table place (typed x) rest →
      Opens table place' b rest' → view (typed x) = view b → R x b)
    (ha : Scans table place (xs.map typed)) (hb : Scans table place' bs)
    (h : (xs.map typed).map view = bs.map view) : List.Forall₂ R xs bs := by
  induction xs generalizing bs place place' with
  | nil =>
    rw [List.map_nil, List.map_nil, eq_comm, List.map_eq_nil_iff] at h
    rw [h]
    exact .nil
  | cons x xs ih =>
    cases hb with
    | nil => simp at h
    | cons first' others' =>
      cases ha with
      | cons first others =>
        obtain ⟨hfirst, hothers⟩ := List.cons.inj h
        exact .cons (related first first' hfirst) (ih others others' hothers)

end Lexeme

end PocketBasic
