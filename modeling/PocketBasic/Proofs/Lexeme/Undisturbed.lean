import PocketBasic.Proofs.Lexeme.Respelled

/-! A keyword in another spelling. The lexemes behind it are read as before, and so are those in
front of it that look at the next character only. What may change is a word: the new spelling may
complete a `REM` or a longer word with the letters around it. So the lexemes are read as before if
and only if every word up to the keyword stays bounded (`scans_exchange_iff`). -/

namespace PocketBasic.Lexeme

variable {table : Keyword.Table} {place : Place} {keyword : Keyword} {lexeme : Lexeme}
  {lexemes front back : List Lexeme} {text text' rest : List Char}

/-- Where `rest` follows the lexemes, no `REM` starts inside of a keyword or an identifier among
them, and none of these is the front of a longer word. -/
def Undisturbed (table : Keyword.Table) (lexemes : List Lexeme) (rest : List Char) : Prop :=
  ∀ before word between, lexemes = before ++ word :: between →
    word.kind = .keyword ∨ word.kind = .identifier →
    Bounded table word.text (written between ++ rest)

theorem undisturbed_cons_iff : Undisturbed table (lexeme :: lexemes) rest ↔
    (lexeme.kind = .keyword ∨ lexeme.kind = .identifier →
      Bounded table lexeme.text (written lexemes ++ rest)) ∧
    Undisturbed table lexemes rest := by
  constructor
  · intro h
    exact ⟨h [] lexeme lexemes rfl, fun before word between heq =>
      h (lexeme :: before) word between (by rw [heq]; rfl)⟩
  · rintro ⟨hfirst, hothers⟩ before word between heq
    cases before with
    | nil =>
      obtain ⟨rfl, rfl⟩ := List.cons.inj heq
      exact hfirst
    | cons first before => exact hothers before word between (List.cons.inj heq).2

/-- Lexemes in front of a keyword are read as before if the keyword is spelled in another way,
unless that disturbs one of them or the keyword itself. -/
theorem scans_exchange_iff (law : table.Lawful) (hk : keyword ∈ table.keywords)
    (htext : text ∈ keyword.spellings) (htext' : text' ∈ keyword.spellings) (hne : text ≠ remWord)
    (hne' : text' ≠ remWord) (hfront : ∀ lexeme ∈ front, lexeme.isRem = false)
    (scans : Scans table place (front ++ ⟨.keyword, text⟩ :: back)) :
    Scans table place (front ++ ⟨.keyword, text'⟩ :: back) ↔
      Undisturbed table (front ++ [⟨.keyword, text'⟩]) (written back) := by
  have hrem : (⟨.keyword, text⟩ : Lexeme).isRem = false := by simp [isRem, hne]
  have hrem' : (⟨.keyword, text'⟩ : Lexeme).isRem = false := by simp [isRem, hne']
  induction front generalizing place with
  | nil =>
    rw [List.nil_append, List.nil_append, undisturbed_cons_iff]
    cases scans with
    | cons first others =>
      rw [placeAfter_eq_inLine (by simp) hrem] at others
      constructor
      · rintro (_ | ⟨first', -⟩)
        refine ⟨fun hword => first'.bounded law hword hrem', fun before word between heq => ?_⟩
        simp at heq
      · rintro ⟨bounded, -⟩
        have opens : Opens table place ⟨.keyword, text'⟩ (written back) :=
          (bounded (.inl rfl)).opens (first.place_ne (by simp) (by simp)) ⟨keyword, hk, htext'⟩
            ((law.regular hk).ne_nil_of_mem htext')
        exact .cons opens (by rwa [placeAfter_eq_inLine (by simp) hrem'])
  | cons lexeme front ih =>
    rw [List.cons_append, List.cons_append, undisturbed_cons_iff]
    have hfirst := hfront lexeme List.mem_cons_self
    cases scans with
    | cons first others =>
      have ih := ih (fun other hmem => hfront other (List.mem_cons_of_mem _ hmem)) others
      have same : SameFront (written (front ++ ⟨.keyword, text⟩ :: back))
          (written (front ++ ⟨.keyword, text'⟩ :: back)) := by
        simp only [written_append, written_cons, ← List.append_assoc]
        exact sameFront_spelling law hk htext htext' ..
      have hwritten : written (front ++ [⟨.keyword, text'⟩]) ++ written back =
          written (front ++ ⟨.keyword, text'⟩ :: back) := by
        simp
      rw [hwritten]
      constructor
      · rintro (_ | ⟨first', others'⟩)
        exact ⟨fun hword => first'.bounded law hword hfirst, ih.mp others'⟩
      · rintro ⟨bounded, undisturbed⟩
        exact .cons (first.congr law same fun hword _ => bounded hword) (ih.mpr undisturbed)

end PocketBasic.Lexeme
