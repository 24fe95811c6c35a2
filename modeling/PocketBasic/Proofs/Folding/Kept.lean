import PocketBasic.Folding
import PocketBasic.Proofs.Text.Content

/-! What folding keeps of a text, without the offsets. A fold looks ahead past blanks only, so what
it keeps of a text depends on the content of what follows (`kept_congr`); it keeps everything but
blanks (`content_kept`), keeps it again (`kept_kept`), and does not notice blanks that are put where
it drops them (`kept_append_blanks`). -/

namespace PocketBasic.Folding

theorem startsSpaced_eq {letters : List Char} (h : ∀ c ∈ letters, Text.isBlank c = false)
    (text : List Char) : startsSpaced letters text = letters.isPrefixOf (Text.content text) := by
  induction letters generalizing text with
  | nil => simp [startsSpaced]
  | cons letter letters ih =>
    have ih := ih fun c hc => h c (List.mem_cons_of_mem _ hc)
    rw [startsSpaced, ← Text.content_trimLeft text]
    split
    next hnil => simp [hnil]
    next c rest hcons =>
      rw [hcons, Text.content_cons_of_not_blank (Text.not_blank_of_trimLeft hcons), ih rest,
        List.isPrefixOf_cons_cons, BEq.comm]

/-- Whether a REM is completed depends on the content of what follows. -/
theorem completesRem_eq (rest : List Char) :
    completesRem rest = ['E', 'M'].isPrefixOf (Text.content rest) :=
  startsSpaced_eq (by decide) rest

theorem not_blank_of_terminator {c : Char} (h : isTerminator c = true) :
    Text.isBlank c = false := by
  simp only [isTerminator, Bool.or_eq_true, beq_iff_eq] at h
  rcases h with rfl | rfl <;> rfl

namespace Mode

theorem next_congr {rest rest' : List Char} (h : Text.content rest = Text.content rest')
    (mode : Mode) (c : Char) : mode.next c rest = mode.next c rest' := by
  simp only [next, completesRem_eq, h]

/-- A blank leaves the reader where it stands. -/
theorem next_of_blank {c : Char} (h : Text.isBlank c = true) (mode : Mode) (rest : List Char) :
    mode.next c rest = mode := by
  simp only [Text.isBlank, Bool.or_eq_true, beq_iff_eq] at h
  rcases h with rfl | rfl <;> cases mode <;> simp [next, isTerminator]

theorem next_of_terminator {c : Char} (h : isTerminator c = true) (mode : Mode)
    (rest : List Char) : mode.next c rest = code := by
  simp [next, h]

/-- A fold does not look beyond a terminator. -/
theorem next_of_terminated {e : Char} (he : isTerminator e = true) (mode : Mode) (c : Char)
    (text rest : List Char) : mode.next c (text ++ e :: rest) = mode.next c text := by
  have hblank : Text.isBlank e = false := not_blank_of_terminator he
  have hcompletes : completesRem (text ++ e :: rest) = completesRem text := by
    rw [completesRem_eq, completesRem_eq, Bool.eq_iff_iff, List.isPrefixOf_iff_prefix,
      List.isPrefixOf_iff_prefix, Text.content_append, Text.content_cons_of_not_blank hblank]
    refine ⟨Text.isPrefix_of_append fun d hd hmem => ?_, fun h => h.trans (List.prefix_append ..)⟩
    obtain rfl := Option.some.inj hd
    have hletters : ∀ letter ∈ ['E', 'M'], isTerminator letter = false := by decide
    rw [hletters e hmem] at he
    contradiction
  simp only [next, hcompletes]

/-- Where the reader stands after a text, with `rest` still to come. -/
def through (mode : Mode) : List Char → List Char → Mode
  | [], _ => mode
  | c :: text, rest => (mode.next c (text ++ rest)).through text rest

@[simp] theorem through_nil (mode : Mode) (rest : List Char) : mode.through [] rest = mode := rfl

theorem through_cons (mode : Mode) (c : Char) (text rest : List Char) :
    mode.through (c :: text) rest = (mode.next c (text ++ rest)).through text rest := rfl

theorem through_append (mode : Mode) (a b rest : List Char) :
    mode.through (a ++ b) rest = (mode.through a (b ++ rest)).through b rest := by
  induction a generalizing mode with
  | nil => rfl
  | cons c a ih => simp only [List.cons_append, through_cons, ih, List.append_assoc]

theorem through_congr {rest rest' : List Char} (h : Text.content rest = Text.content rest')
    (mode : Mode) (text : List Char) : mode.through text rest = mode.through text rest' := by
  induction text generalizing mode with
  | nil => rfl
  | cons c text ih =>
    have hcontent : Text.content (text ++ rest) = Text.content (text ++ rest') := by
      simp only [Text.content_append, h]
    rw [through_cons, through_cons, ih, next_congr hcontent]

theorem through_of_blank {blanks : List Char} (h : ∀ c ∈ blanks, Text.isBlank c = true)
    (mode : Mode) (rest : List Char) : mode.through blanks rest = mode := by
  induction blanks generalizing mode with
  | nil => rfl
  | cons c blanks ih =>
    rw [through_cons, next_of_blank (h c List.mem_cons_self)]
    exact ih (fun d hd => h d (List.mem_cons_of_mem _ hd)) mode

/-- A fold looks ahead at an `R` in the code and nowhere else. -/
theorem next_eq_of_ne {mode : Mode} {c : Char} (h : ¬ (mode = code ∧ c = 'R'))
    (rest rest' : List Char) : mode.next c rest = mode.next c rest' := by
  cases mode with
  | quoted | comment | rem => rfl
  | code =>
    have hc : c ≠ 'R' := fun hc => h ⟨rfl, hc⟩
    simp only [next, hc, false_and]

theorem next_letter (rest : List Char) :
    code.next 'R' rest = if completesRem rest then rem else code := by
  simp [next, isTerminator]

/-- Where a `REM` is completed after the text only, all of the text lies between its letters. -/
theorem through_of_completesRem {text rest : List Char} (h : completesRem (text ++ rest) = true)
    (htext : completesRem text = false) :
    rem.through text rest = rem ∧ code.through text [] = code := by
  have letters : ∀ c ∈ text, Text.isBlank c = true ∨ c = 'E' := by
    rw [Bool.eq_false_iff, Ne, completesRem_eq, List.isPrefixOf_iff_prefix] at htext
    rw [completesRem_eq, List.isPrefixOf_iff_prefix, Text.content_append] at h
    have hshort : (Text.content text).length < 2 := Nat.lt_of_not_le fun hle =>
      htext (List.prefix_of_prefix_length_le h (List.prefix_append ..) hle)
    have htwo : Text.content text <+: ['E', 'M'] :=
      List.prefix_of_prefix_length_le (List.prefix_append ..) h (Nat.le_of_lt hshort)
    have hone : Text.content text <+: ['E'] :=
      List.prefix_of_prefix_length_le htwo (List.prefix_append ['E'] ['M'])
        (Nat.le_of_lt_succ hshort)
    intro c hc
    cases hblank : Text.isBlank c with
    | true => exact .inl rfl
    | false =>
      have hmem : c ∈ Text.content text := List.mem_filter.mpr ⟨hc, by simp [hblank]⟩
      exact .inr (List.mem_singleton.mp (hone.subset hmem))
  clear h htext
  induction text with
  | nil => exact ⟨rfl, rfl⟩
  | cons c text ih =>
    have ih := ih fun d hd => letters d (List.mem_cons_of_mem _ hd)
    rw [through_cons, through_cons]
    rcases letters c List.mem_cons_self with hblank | rfl
    · rw [next_of_blank hblank, next_of_blank hblank]
      exact ih
    · simpa [next, isTerminator] using ih

/-- Whether a fold stands in a string or a comment after a text does not depend on what follows the
text. -/
theorem isVerbatim_through (mode : Mode) (text rest : List Char) :
    (mode.through text rest).isVerbatim = (mode.through text []).isVerbatim := by
  induction text generalizing mode with
  | nil => rfl
  | cons c text ih =>
    rw [through_cons, through_cons, List.append_nil]
    by_cases h : mode = code ∧ c = 'R'
    · obtain ⟨rfl, rfl⟩ := h
      rw [next_letter, next_letter]
      cases hrest : completesRem (text ++ rest) with
      | false =>
        have htext : completesRem text = false := by
          rw [Bool.eq_false_iff, Ne, completesRem_eq, List.isPrefixOf_iff_prefix] at hrest ⊢
          rw [Text.content_append] at hrest
          exact fun h => hrest (h.trans (List.prefix_append ..))
        rw [htext, ih]
      | true =>
        cases htext : completesRem text with
        | true => rw [ih]
        | false =>
          obtain ⟨hthrough, hthrough'⟩ := through_of_completesRem hrest htext
          simp only [if_true, if_false, Bool.false_eq_true, hthrough, hthrough']
          rfl
    · rw [next_eq_of_ne h _ text, ih]

end Mode

/-- The characters that folding keeps of a text that is read from `mode` on, with `rest` after
it. -/
def kept (mode : Mode) : List Char → List Char → List Char
  | [], _ => []
  | c :: text, rest =>
    let others := kept (mode.next c (text ++ rest)) text rest
    if mode.isVerbatim || !Text.isBlank c then c :: others else others

@[simp] theorem kept_nil (mode : Mode) (rest : List Char) : kept mode [] rest = [] := rfl

theorem kept_cons_of_keeps {mode : Mode} {c : Char}
    (h : mode.isVerbatim = true ∨ Text.isBlank c = false) (text rest : List Char) :
    kept mode (c :: text) rest = c :: kept (mode.next c (text ++ rest)) text rest := by
  rw [kept, if_pos (by simpa using h)]

theorem kept_cons_of_drops {mode : Mode} {c : Char} (hm : mode.isVerbatim = false)
    (hc : Text.isBlank c = true) (text rest : List Char) :
    kept mode (c :: text) rest = kept mode text rest := by
  rw [kept, if_neg (by simp [hm, hc]), Mode.next_of_blank hc]

/-- Folding keeps or drops a character, and goes on. -/
theorem kept_cons_cases (mode : Mode) (c : Char) (text rest : List Char) :
    ((mode.isVerbatim = true ∨ Text.isBlank c = false) ∧
      kept mode (c :: text) rest = c :: kept (mode.next c (text ++ rest)) text rest) ∨
    (mode.isVerbatim = false ∧ Text.isBlank c = true ∧
      kept mode (c :: text) rest = kept mode text rest) := by
  cases hm : mode.isVerbatim with
  | true => exact .inl ⟨.inl rfl, kept_cons_of_keeps (.inl hm) text rest⟩
  | false =>
    cases hc : Text.isBlank c with
    | true => exact .inr ⟨rfl, rfl, kept_cons_of_drops hm hc text rest⟩
    | false => exact .inl ⟨.inr rfl, kept_cons_of_keeps (.inr hc) text rest⟩

theorem kept_sublist (mode : Mode) (text rest : List Char) :
    (kept mode text rest).Sublist text := by
  induction text generalizing mode with
  | nil => exact .slnil
  | cons c text ih =>
    rw [kept]
    split
    · exact (ih _).cons_cons c
    · exact (ih _).cons c

theorem kept_cons_eq_self {mode : Mode} {c : Char} {text rest : List Char}
    (h : kept mode (c :: text) rest = c :: text) :
    (mode.isVerbatim = true ∨ Text.isBlank c = false) ∧
      kept (mode.next c (text ++ rest)) text rest = text := by
  rcases kept_cons_cases mode c text rest with ⟨keeps, heq⟩ | ⟨_, _, heq⟩
  · exact ⟨keeps, (List.cons.inj (heq.symm.trans h)).2⟩
  · have hle := (kept_sublist mode text rest).length_le
    rw [← heq, h, List.length_cons] at hle
    omega

theorem text_foldFrom (mode : Mode) (offset : Nat) (text : List Char) :
    Folding.text (foldFrom mode offset text) = kept mode text [] := by
  induction text generalizing mode offset with
  | nil => rfl
  | cons c text ih =>
    rw [foldFrom, kept, List.append_nil]
    split
    next => rw [Folding.text, List.map_cons, ← ih _ (offset + c.utf8Size)]; rfl
    next => exact ih ..

theorem text_fold (text : List Char) : Folding.text (fold text) = kept .code text [] :=
  text_foldFrom ..

theorem kept_append (mode : Mode) (a b rest : List Char) :
    kept mode (a ++ b) rest =
      kept mode a (b ++ rest) ++ kept (mode.through a (b ++ rest)) b rest := by
  induction a generalizing mode with
  | nil => rfl
  | cons c a ih =>
    simp only [List.cons_append, kept, Mode.through_cons, ih, List.append_assoc]
    split <;> rfl

/-- What is kept of a text ends as the text does, if it does not end in a blank. -/
theorem endsBlank_kept {text : List Char} (h : Text.endsBlank text = false) (mode : Mode)
    (rest : List Char) : Text.endsBlank (kept mode text rest) = false := by
  rcases List.eq_nil_or_concat text with rfl | ⟨front, c, rfl⟩
  · rfl
  · rw [List.concat_eq_append] at h ⊢
    have hc : Text.isBlank c = false := by simpa [Text.endsBlank] using h
    rw [kept_append, kept_cons_of_keeps (.inr hc), kept_nil, Text.endsBlank_append (by simp)]
    exact hc

theorem kept_congr {rest rest' : List Char} (h : Text.content rest = Text.content rest')
    (mode : Mode) (text : List Char) : kept mode text rest = kept mode text rest' := by
  induction text generalizing mode with
  | nil => rfl
  | cons c text ih =>
    have hcontent : Text.content (text ++ rest) = Text.content (text ++ rest') := by
      simp only [Text.content_append, h]
    rw [kept, kept, ih, Mode.next_congr hcontent]

/-- Folding drops nothing but blanks. -/
@[simp] theorem content_kept (mode : Mode) (text rest : List Char) :
    Text.content (kept mode text rest) = Text.content text := by
  induction text generalizing mode with
  | nil => rfl
  | cons c text ih =>
    rcases kept_cons_cases mode c text rest with ⟨_, heq⟩ | ⟨_, hc, heq⟩
    · rw [heq]
      cases hc : Text.isBlank c with
      | true => rw [Text.content_cons_of_blank hc, Text.content_cons_of_blank hc, ih]
      | false => rw [Text.content_cons_of_not_blank hc, Text.content_cons_of_not_blank hc, ih]
    · rw [heq, ih, Text.content_cons_of_blank hc]

/-- Folding what was kept keeps it, and ends where the first fold did. -/
theorem kept_kept (mode : Mode) (text rest : List Char) :
    kept mode (kept mode text rest) rest = kept mode text rest ∧
      mode.through (kept mode text rest) rest = mode.through text rest := by
  induction text generalizing mode with
  | nil => exact ⟨rfl, rfl⟩
  | cons c text ih =>
    rcases kept_cons_cases mode c text rest with ⟨keeps, heq⟩ | ⟨_, hc, heq⟩
    · have ih := ih (mode.next c (text ++ rest))
      have next : mode.next c (kept (mode.next c (text ++ rest)) text rest ++ rest) =
          mode.next c (text ++ rest) := Mode.next_congr (by simp) mode c
      rw [heq, kept_cons_of_keeps keeps, Mode.through_cons, Mode.through_cons, next]
      exact ⟨by rw [ih.1], ih.2⟩
    · rw [heq, Mode.through_cons, Mode.next_of_blank hc]
      exact ih mode

/-- A fold that keeps a whole text keeps each of its parts. -/
theorem kept_append_eq_self {mode : Mode} {a b rest : List Char}
    (h : kept mode (a ++ b) rest = a ++ b) :
    kept mode a (b ++ rest) = a ∧ kept (mode.through a (b ++ rest)) b rest = b := by
  rw [kept_append] at h
  have ha := (kept_sublist mode a (b ++ rest)).length_le
  have hb := (kept_sublist (mode.through a (b ++ rest)) b rest).length_le
  have hlen := congrArg List.length h
  simp only [List.length_append] at hlen
  exact List.append_inj h (by omega)

theorem kept_of_blank {blanks : List Char} (h : ∀ c ∈ blanks, Text.isBlank c = true)
    (mode : Mode) (rest : List Char) :
    kept mode blanks rest = if mode.isVerbatim then blanks else [] := by
  induction blanks with
  | nil => simp
  | cons c blanks ih =>
    have hc := h c List.mem_cons_self
    have ih := ih fun d hd => h d (List.mem_cons_of_mem _ hd)
    rcases kept_cons_cases mode c blanks rest with ⟨keeps, heq⟩ | ⟨hm, _, heq⟩
    · have hm : mode.isVerbatim = true := by simpa [hc] using keeps
      rw [heq, Mode.next_of_blank hc, ih, if_pos hm, if_pos hm]
    · rw [heq, ih, if_neg (by simp [hm]), if_neg (by simp [hm])]

/-- Blanks outside of strings and comments make no difference, wherever they stand. -/
theorem kept_append_blanks {mode : Mode} {a blanks b rest : List Char}
    (h : ∀ c ∈ blanks, Text.isBlank c = true)
    (hm : (mode.through a (b ++ rest)).isVerbatim = false) :
    kept mode (a ++ blanks ++ b) rest = kept mode (a ++ b) rest := by
  have hcontent : Text.content (blanks ++ (b ++ rest)) = Text.content (b ++ rest) := by
    simp [Text.content_eq_nil_iff.mpr h]
  rw [List.append_assoc, kept_append, kept_append mode a b, List.append_assoc,
    kept_congr hcontent, Mode.through_congr hcontent, kept_append,
    kept_of_blank h, if_neg (by simp [hm]), Mode.through_of_blank h, List.nil_append]

/-- What is kept of a line does not depend on the lines after it, and these are folded from the
code on. -/
theorem kept_terminated {e : Char} (he : isTerminator e = true) (mode : Mode)
    (text rest : List Char) :
    kept mode (text ++ e :: rest) [] = kept mode text [] ++ e :: kept .code rest [] := by
  induction text generalizing mode with
  | nil =>
    rw [List.nil_append, kept_cons_of_keeps (.inr (not_blank_of_terminator he)),
      Mode.next_of_terminator he]
    rfl
  | cons c text ih =>
    rw [List.cons_append, kept, kept, List.append_nil, List.append_nil,
      Mode.next_of_terminated he, ih]
    split <;> rfl

/-- Blanks in front of the code are dropped. -/
theorem kept_blanks_append {blanks : List Char} (h : ∀ c ∈ blanks, Text.isBlank c = true)
    (text rest : List Char) : kept .code (blanks ++ text) rest = kept .code text rest :=
  kept_append_blanks (a := []) h rfl

/-- Characters that no terminator is among are kept inside a comment. -/
theorem kept_comment {text : List Char} (h : ∀ c ∈ text, isTerminator c = false)
    (rest : List Char) :
    kept .comment text rest = text ∧ Mode.comment.through text rest = .comment := by
  induction text with
  | nil => exact ⟨rfl, rfl⟩
  | cons c text ih =>
    have next : Mode.comment.next c (text ++ rest) = .comment := by
      simp [Mode.next, h c List.mem_cons_self]
    have ih := ih fun d hd => h d (List.mem_cons_of_mem _ hd)
    rw [kept_cons_of_keeps (.inl rfl), Mode.through_cons, next]
    exact ⟨by rw [ih.1], ih.2⟩

end PocketBasic.Folding
