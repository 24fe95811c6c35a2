import PocketBasic.Proofs.Lexeme.Modes

/-! Outside of strings and comments, said without a machine that reads along. A text leaves its
reader in the code when it consists of characters that open nothing and of strings and comments
that are closed again (`Outside`), and a fold that reads the text stands outside exactly then
(`outside_iff`). -/

namespace PocketBasic.Folding

variable {mode : Mode} {word body text rest : List Char} {c : Char}

/-- The words that open a string or a comment when they are read in the code, with the mode that
they open. A `REM` may have blanks between its letters. -/
inductive Opener : Mode → List Char → Prop where
  | quote : Opener .quoted ['"']
  | apostrophe : Opener .comment ['\'']
  | rem {first second : List Char} (hfirst : ∀ c ∈ first, Text.isBlank c = true)
      (hsecond : ∀ c ∈ second, Text.isBlank c = true) :
      Opener .comment ('R' :: (first ++ 'E' :: (second ++ ['M'])))

/-- Whether the character closes what the mode is in. The end of the line closes everything. -/
def Mode.closes (mode : Mode) (c : Char) : Bool :=
  isTerminator c || mode == .quoted && c == '"'

/-- A text after which the reader is neither in a string nor in a comment. -/
inductive Outside : List Char → Prop where
  | nil : Outside []
  | plain {c : Char} {text : List Char}
      (hplain : ∀ mode word, Opener mode word → ¬ word <+: c :: text)
      (others : Outside text) : Outside (c :: text)
  | closed {mode : Mode} {word body text : List Char} {c : Char} (opener : Opener mode word)
      (hbody : ∀ d ∈ body, mode.closes d = false) (hc : mode.closes c = true)
      (others : Outside text) : Outside (word ++ (body ++ c :: text))

/-! ### Openers -/

/-- A fold looks for the letters of a word past blanks. -/
theorem startsSpaced_cons_iff {letter : Char} (hletter : Text.isBlank letter = false)
    (letters text : List Char) : startsSpaced (letter :: letters) text = true ↔
      ∃ blanks rest, (∀ c ∈ blanks, Text.isBlank c = true) ∧ text = blanks ++ letter :: rest ∧
        startsSpaced letters rest = true := by
  constructor
  · intro h
    obtain ⟨blanks, hblanks, htext⟩ := Text.exists_trimLeft text
    rw [startsSpaced] at h
    split at h
    · contradiction
    next c rest htrim =>
      rw [Bool.and_eq_true, beq_iff_eq] at h
      obtain ⟨rfl, hrest⟩ := h
      exact ⟨blanks, rest, hblanks, htrim ▸ htext, hrest⟩
  · rintro ⟨blanks, rest, hblanks, rfl, hrest⟩
    rw [startsSpaced, Text.trimLeft_append_of_blank hblanks,
      Text.trimLeft_cons_of_not_blank hletter]
    simpa using hrest

theorem completesRem_iff : completesRem text = true ↔
    ∃ first second rest, (∀ c ∈ first, Text.isBlank c = true) ∧
      (∀ c ∈ second, Text.isBlank c = true) ∧ text = first ++ 'E' :: (second ++ 'M' :: rest) := by
  rw [completesRem, startsSpaced_cons_iff (by decide)]
  constructor
  · rintro ⟨first, others, hfirst, rfl, hothers⟩
    obtain ⟨second, rest, hsecond, rfl, -⟩ := (startsSpaced_cons_iff (by decide) ..).mp hothers
    exact ⟨first, second, rest, hfirst, hsecond, rfl⟩
  · rintro ⟨first, second, rest, hfirst, hsecond, rfl⟩
    exact ⟨first, _, hfirst, rfl,
      (startsSpaced_cons_iff (by decide) ..).mpr ⟨second, rest, hsecond, rfl, rfl⟩⟩

theorem Opener.isVerbatim (opener : Opener mode word) : mode.isVerbatim = true := by
  cases opener <;> rfl

theorem Opener.through (opener : Opener mode word) (rest : List Char) :
    Mode.code.through word rest = mode := by
  cases opener with
  | quote => rfl
  | apostrophe => rfl
  | @rem first second hfirst hsecond =>
    have hcompletes : completesRem (first ++ 'E' :: (second ++ ['M']) ++ rest) = true :=
      completesRem_iff.mpr ⟨first, second, rest, hfirst, hsecond, by simp⟩
    rw [Mode.through_cons, Mode.next_letter, hcompletes, if_pos rfl, Mode.through_append,
      Mode.through_of_blank hfirst, Mode.through_cons, Mode.through_append]
    have hE (more : List Char) : Mode.rem.next 'E' more = .rem := rfl
    rw [hE, Mode.through_of_blank hsecond]
    rfl

/-- In the code, a fold goes on in the code unless an opener stands in front of it. -/
theorem next_eq_code_or_exists_opener (c : Char) (text : List Char) :
    Mode.code.next c text = .code ∨ ∃ mode word, Opener mode word ∧ word <+: c :: text := by
  cases hc : Lexeme.isPlain c with
  | true =>
    rw [Lexeme.next_of_isPlain hc]
    split
    next h =>
      obtain ⟨rfl, hcompletes⟩ := h
      obtain ⟨first, second, rest, hfirst, hsecond, rfl⟩ := completesRem_iff.mp hcompletes
      exact .inr ⟨_, _, .rem hfirst hsecond, rest, by simp⟩
    next => exact .inl rfl
  | false =>
    simp only [Lexeme.isPlain, Bool.and_eq_false_iff, Bool.not_eq_false', bne_eq_false_iff_eq] at hc
    rcases hc with (hline | rfl) | rfl
    · exact .inl (Mode.next_of_terminator hline _ _)
    · exact .inr ⟨_, _, .quote, text, rfl⟩
    · exact .inr ⟨_, _, .apostrophe, text, rfl⟩

/-! ### Strings and comments -/

theorem Mode.next_of_closes (hverbatim : mode.isVerbatim = true) (hc : mode.closes c = true)
    (rest : List Char) : mode.next c rest = .code := by
  cases hline : isTerminator c with
  | true => exact Mode.next_of_terminator hline mode rest
  | false =>
    rw [Mode.closes, hline, Bool.false_or, Bool.and_eq_true, beq_iff_eq, beq_iff_eq] at hc
    obtain ⟨rfl, rfl⟩ := hc
    rfl

/-- A string or a comment stays open up to what closes it. -/
theorem Mode.through_of_not_closes (hverbatim : mode.isVerbatim = true)
    (hbody : ∀ c ∈ body, mode.closes c = false) (rest : List Char) :
    mode.through body rest = mode := by
  simp only [Mode.closes, Bool.or_eq_false_iff] at hbody
  have hline : ∀ c ∈ body, isTerminator c = false := fun c hc => (hbody c hc).1
  cases mode with
  | quoted => exact Lexeme.through_quoted hline (fun hq => by simpa using (hbody '"' hq).2) rest
  | comment => exact (kept_comment hline rest).2
  | code | rem => contradiction

/-- What follows an opener closes what it opened, or leaves it open. -/
theorem Mode.not_closes_or_exists (mode : Mode) (text : List Char) :
    (∀ c ∈ text, mode.closes c = false) ∨ ∃ body c rest, text = body ++ c :: rest ∧
      (∀ d ∈ body, mode.closes d = false) ∧ mode.closes c = true := by
  obtain ⟨body, rest, rfl, -, hbody, hrest⟩ := Lexeme.exists_run (fun c => !mode.closes c) text
  have hbody : ∀ d ∈ body, mode.closes d = false := by simpa using hbody
  cases rest with
  | nil => exact .inl (by simpa using hbody)
  | cons c rest => exact .inr ⟨body, c, rest, rfl, hbody, by simpa using hrest⟩

theorem Outside.through_eq (outside : Outside text) : Mode.code.through text [] = .code := by
  induction outside with
  | nil => rfl
  | @plain c text hplain _ ih =>
    rcases next_eq_code_or_exists_opener c text with next | ⟨mode, word, opener, hword⟩
    · rw [Mode.through_cons, List.append_nil, next, ih]
    · exact absurd hword (hplain mode word opener)
  | @closed mode word body text c opener hbody hc _ ih =>
    rw [Mode.through_append, opener.through, Mode.through_append,
      Mode.through_of_not_closes opener.isVerbatim hbody, Mode.through_cons,
      Mode.next_of_closes opener.isVerbatim hc, ih]

/-- A text leaves its reader outside of strings and comments if and only if a fold that reads it
stands there, whatever follows the text. -/
theorem outside_iff (text rest : List Char) :
    Outside text ↔ (Mode.code.through text rest).isVerbatim = false := by
  rw [Mode.isVerbatim_through]
  refine ⟨fun outside => by rw [outside.through_eq]; rfl, fun h => ?_⟩
  -- on the length, since a string or a comment is read as a whole
  induction hlength : text.length using Nat.strongRecOn generalizing text with
  | _ length ih =>
    cases text with
    | nil => exact .nil
    | cons c text =>
      rw [List.length_cons] at hlength
      by_cases hopener : ∃ mode word, Opener mode word ∧ word <+: c :: text
      · obtain ⟨mode, word, opener, others, heq⟩ := hopener
        rw [← heq, Mode.through_append, opener.through] at h
        rcases mode.not_closes_or_exists others with hbody | ⟨body, d, more, rfl, hbody, hd⟩
        · rw [Mode.through_of_not_closes opener.isVerbatim hbody, opener.isVerbatim] at h
          contradiction
        · rw [Mode.through_append, Mode.through_of_not_closes opener.isVerbatim hbody,
            Mode.through_cons, Mode.next_of_closes opener.isVerbatim hd] at h
          have hlt : more.length < length := by
            have := congrArg List.length heq
            simp only [List.length_append, List.length_cons] at this
            omega
          exact heq ▸ .closed opener hbody hd (ih more.length hlt more h rfl)
      · have hplain : ∀ mode word, Opener mode word → ¬ word <+: c :: text :=
          fun mode word opener hword => hopener ⟨mode, word, opener, hword⟩
        have next : Mode.code.next c text = .code :=
          (next_eq_code_or_exists_opener c text).resolve_right hopener
        rw [Mode.through_cons, List.append_nil, next] at h
        exact .plain hplain (ih text.length (by omega) text h rfl)

end PocketBasic.Folding
