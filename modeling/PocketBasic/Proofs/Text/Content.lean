import PocketBasic.Text.Blank

/-! The content of a text: what is left of it without its blanks. Folding and trimming drop blanks
and nothing else, so neither changes the content, and what a reader decides by looking past blanks
depends on the content alone. -/

namespace PocketBasic.Text

/-- The characters that are not blank. -/
def content (text : List Char) : List Char :=
  text.filter fun c => !isBlank c

@[simp] theorem content_nil : content [] = [] := rfl

theorem content_cons_of_blank {c : Char} (h : isBlank c = true) (text : List Char) :
    content (c :: text) = content text := by
  simp [content, h]

theorem content_cons_of_not_blank {c : Char} (h : isBlank c = false) (text : List Char) :
    content (c :: text) = c :: content text := by
  simp [content, h]

@[simp] theorem content_append (a b : List Char) : content (a ++ b) = content a ++ content b := by
  simp [content]

theorem content_eq_nil_iff {text : List Char} :
    content text = [] ↔ ∀ c ∈ text, isBlank c = true := by
  simp [content, List.filter_eq_nil_iff]

theorem content_eq_self_iff {text : List Char} :
    content text = text ↔ ∀ c ∈ text, isBlank c = false := by
  simp [content, List.filter_eq_self]

/-- A word does not reach into a text whose first character is not in it. -/
theorem isPrefix_of_append {word text rest : List Char} (hstop : ∀ c ∈ rest.head?, c ∉ word)
    (h : word <+: text ++ rest) : word <+: text := by
  by_cases hle : word.length ≤ text.length
  · exact List.prefix_of_prefix_length_le h (List.prefix_append ..) hle
  · exfalso
    obtain ⟨beyond, hbeyond⟩ := List.prefix_of_prefix_length_le (List.prefix_append text rest) h
      (by omega)
    cases beyond with
    | nil => simp [← hbeyond] at hle
    | cons c beyond =>
      rw [← hbeyond, List.prefix_append_right_inj] at h
      obtain ⟨more, rfl⟩ := h
      exact hstop c rfl (by simp [← hbeyond])

/-! ### Trimming -/

@[simp] theorem trimLeft_nil : trimLeft [] = [] := rfl

theorem trimLeft_cons_of_blank {c : Char} (h : isBlank c = true) (text : List Char) :
    trimLeft (c :: text) = trimLeft text := by
  simp [trimLeft, h]

theorem trimLeft_cons_of_not_blank {c : Char} (h : isBlank c = false) (text : List Char) :
    trimLeft (c :: text) = c :: text := by
  simp [trimLeft, h]

theorem trimLeft_append_of_blank {a : List Char} (h : ∀ c ∈ a, isBlank c = true)
    (b : List Char) : trimLeft (a ++ b) = trimLeft b := by
  simp only [trimLeft]
  exact List.dropWhile_append_of_pos h

/-- Trimming on the left drops blanks and stops at the first other character. -/
theorem exists_trimLeft (text : List Char) :
    ∃ blanks, (∀ c ∈ blanks, isBlank c = true) ∧ text = blanks ++ trimLeft text := by
  refine ⟨text.takeWhile isBlank, fun c hc => ?_, ?_⟩
  · exact List.all_eq_true.mp List.all_takeWhile c hc
  · exact List.takeWhile_append_dropWhile.symm

theorem not_blank_of_trimLeft {text rest : List Char} {c : Char}
    (h : trimLeft text = c :: rest) : isBlank c = false := by
  induction text with
  | nil => simp at h
  | cons d text ih =>
    cases hd : isBlank d with
    | true => exact ih (by rwa [trimLeft_cons_of_blank hd] at h)
    | false =>
      rw [trimLeft_cons_of_not_blank hd] at h
      cases h
      exact hd

@[simp] theorem content_trimLeft (text : List Char) : content (trimLeft text) = content text := by
  obtain ⟨blanks, hb, heq⟩ := exists_trimLeft text
  conv => rhs; rw [heq, content_append, content_eq_nil_iff.mpr hb, List.nil_append]

@[simp] theorem trimRight_nil : trimRight [] = [] := rfl

/-- Trimming on the right drops blanks and stops at the last other character. -/
theorem exists_trimRight (text : List Char) :
    ∃ blanks, (∀ c ∈ blanks, isBlank c = true) ∧ text = trimRight text ++ blanks := by
  induction text with
  | nil => exact ⟨[], by simp, rfl⟩
  | cons c text ih =>
    obtain ⟨blanks, hb, heq⟩ := ih
    simp only [trimRight]
    split
    next h =>
      rw [h, List.nil_append] at heq
      subst heq
      split
      next hc => exact ⟨c :: text, by simpa [hc] using hb, rfl⟩
      next hc => exact ⟨text, hb, rfl⟩
    next h => exact ⟨blanks, hb, by rw [List.cons_append, ← heq]⟩

theorem not_blank_of_trimRight {text front : List Char} {c : Char}
    (h : trimRight text = front ++ [c]) : isBlank c = false := by
  induction text generalizing front with
  | nil => simp at h
  | cons d text ih =>
    simp only [trimRight] at h
    split at h
    next hnil =>
      split at h
      next => simp at h
      next hd =>
        cases front with
        | nil => simpa [← (List.cons.inj h).1] using hd
        | cons e front => simp at h
    next =>
      cases front with
      | nil => simp_all
      | cons e front => exact ih (List.cons.inj h).2

/-- A text that ends in something other than a blank has nothing to trim on the right. -/
theorem trimRight_append_of_not_blank {c : Char} (h : isBlank c = false) (front : List Char) :
    trimRight (front ++ [c]) = front ++ [c] := by
  induction front with
  | nil => simp [trimRight, h]
  | cons d front ih =>
    simp only [List.cons_append, trimRight, ih]
    cases front <;> rfl

theorem trimRight_append_of_blank {b : List Char} (h : ∀ c ∈ b, isBlank c = true)
    (a : List Char) : trimRight (a ++ b) = trimRight a := by
  induction a with
  | nil =>
    induction b with
    | nil => rfl
    | cons c b ih =>
      have := ih fun d hd => h d (List.mem_cons_of_mem _ hd)
      rw [List.nil_append, trimRight_nil] at this
      simp [trimRight, this, h c List.mem_cons_self]
  | cons c a ih => simp only [List.cons_append, trimRight, ih]

theorem trimRight_append_of_ne_nil {b : List Char} (h : trimRight b ≠ []) (a : List Char) :
    trimRight (a ++ b) = a ++ trimRight b := by
  induction a with
  | nil => rfl
  | cons c a ih =>
    rw [List.cons_append, trimRight, ih]
    split
    next hnil => exact absurd (List.append_eq_nil_iff.mp hnil).2 h
    next => rfl

theorem trimRight_cons_of_not_blank {c : Char} (h : isBlank c = false) (text : List Char) :
    trimRight (c :: text) = c :: trimRight text := by
  rw [trimRight]
  split
  next hnil => rw [h, if_neg Bool.false_ne_true, hnil]
  next => rfl

theorem blank_of_trimRight_eq_nil {text : List Char} (h : trimRight text = []) :
    ∀ c ∈ text, isBlank c = true := by
  obtain ⟨blanks, hblanks, heq⟩ := exists_trimRight text
  rw [heq, h]
  exact hblanks

@[simp] theorem content_trimRight (text : List Char) :
    content (trimRight text) = content text := by
  obtain ⟨blanks, hb, heq⟩ := exists_trimRight text
  conv => rhs; rw [heq, content_append, content_eq_nil_iff.mpr hb, List.append_nil]

theorem trim_sublist (text : List Char) : (trim text).Sublist text := by
  obtain ⟨front, _, hfront⟩ := exists_trimLeft text
  obtain ⟨back, _, hback⟩ := exists_trimRight (trimLeft text)
  rw [hback] at hfront
  conv => rhs; rw [hfront]
  exact (List.sublist_append_left _ back).trans (List.sublist_append_right front _)

theorem trim_append_of_blank {b : List Char} (h : ∀ c ∈ b, isBlank c = true)
    (a : List Char) : trim (a ++ b) = trim a := by
  obtain ⟨blanks, hblanks, heq⟩ := exists_trimLeft a
  rw [trim, trim]
  cases hleft : trimLeft a with
  | nil =>
    rw [hleft, List.append_nil] at heq
    rw [heq, trimLeft_append_of_blank hblanks, ← List.append_nil b, trimLeft_append_of_blank h]
    rfl
  | cons c rest =>
    rw [heq, hleft, List.append_assoc, trimLeft_append_of_blank hblanks, List.cons_append,
      trimLeft_cons_of_not_blank (not_blank_of_trimLeft hleft), ← List.cons_append,
      trimRight_append_of_blank h]

@[simp] theorem content_trim (text : List Char) : content (trim text) = content text := by
  simp [trim]

/-- Whether the text has a blank at its end. -/
def endsBlank (text : List Char) : Bool :=
  text.getLast?.any isBlank

theorem endsBlank_append {b : List Char} (h : b ≠ []) (a : List Char) :
    endsBlank (a ++ b) = endsBlank b := by
  obtain ⟨front, c, rfl⟩ := (List.eq_nil_or_concat b).resolve_left h
  simp [endsBlank, ← List.append_assoc]

theorem endsBlank_of_not_blank {text : List Char} (h : ∀ c ∈ text, isBlank c = false) :
    endsBlank text = false := by
  rw [endsBlank]
  cases hlast : text.getLast? with
  | none => rfl
  | some c => exact h c (List.mem_of_getLast? hlast)

/-- Neither end of the text is blank. -/
structure IsTrimmed (text : List Char) : Prop where
  left : startsBlank text = false
  right : endsBlank text = false

theorem IsTrimmed.eq_nil_of_content {text : List Char} (h : IsTrimmed text)
    (hcontent : content text = []) : text = [] := by
  cases text with
  | nil => rfl
  | cons c rest =>
    have hc : isBlank c = false := h.left
    rw [content_eq_nil_iff.mp hcontent c List.mem_cons_self] at hc
    contradiction

theorem trimLeft_eq {text : List Char} (h : startsBlank text = false) : trimLeft text = text := by
  cases text with
  | nil => rfl
  | cons c rest => exact trimLeft_cons_of_not_blank h rest

theorem trimRight_eq {text : List Char} (h : endsBlank text = false) : trimRight text = text := by
  rcases List.eq_nil_or_concat text with rfl | ⟨front, c, rfl⟩
  · rfl
  · rw [List.concat_eq_append] at h ⊢
    exact trimRight_append_of_not_blank (by simpa [endsBlank] using h) front

/-- Trimming stops in front of a text that ends in something other than a blank. -/
theorem trimRight_append {a : List Char} (h : endsBlank a = false) (b : List Char) :
    trimRight (a ++ b) = a ++ trimRight b := by
  by_cases hb : trimRight b = []
  · rw [trimRight_append_of_blank (blank_of_trimRight_eq_nil hb), trimRight_eq h, hb,
      List.append_nil]
  · exact trimRight_append_of_ne_nil hb a

theorem IsTrimmed.trim_eq {text : List Char} (h : IsTrimmed text) : trim text = text := by
  rw [trim, trimLeft_eq h.left, trimRight_eq h.right]

theorem trim_blanks_append {blanks text : List Char} (hblanks : ∀ c ∈ blanks, isBlank c = true)
    (h : IsTrimmed text) : trim (blanks ++ text) = text := by
  rw [trim, trimLeft_append_of_blank hblanks]
  exact h.trim_eq

theorem isTrimmed_trim (text : List Char) : IsTrimmed (trim text) where
  left := by
    cases h : trim text with
    | nil => rfl
    | cons c rest =>
      obtain ⟨blanks, _, heq⟩ := exists_trimRight (trimLeft text)
      rw [trim] at h
      rw [h, List.cons_append] at heq
      exact not_blank_of_trimLeft heq
  right := by
    rcases List.eq_nil_or_concat (trim text) with h | ⟨front, c, h⟩
    · rw [h]
      rfl
    · rw [List.concat_eq_append] at h
      simpa [h, endsBlank] using not_blank_of_trimRight h

@[simp] theorem trim_trim (text : List Char) : trim (trim text) = trim text :=
  (isTrimmed_trim text).trim_eq

end PocketBasic.Text
