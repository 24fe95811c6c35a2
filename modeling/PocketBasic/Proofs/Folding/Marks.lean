import PocketBasic.Proofs.Folding.Kept
import PocketBasic.Text.Offset

/-! The marks of a fold. A mark tells where its character stands in the text and in which mode it
was read, and what follows it is the fold of what follows its character (`foldFrom_eq_append`). So
marks stand in the order of the text, and only blanks have none. -/

namespace PocketBasic

namespace Text

variable {text : List Char} {offset : Nat} {c : Char}

/-- The character stands at the offset of the text. -/
def At (text : List Char) (offset : Nat) (c : Char) : Prop :=
  ∃ before after, text = before ++ c :: after ∧ byteLength before = offset

/-- The offset does not fall inside of a character of the text. -/
def IsBoundary (text : List Char) (offset : Nat) : Prop :=
  ∃ before after, text = before ++ after ∧ byteLength before = offset

theorem isBoundary_byteLength (text : List Char) : IsBoundary text (byteLength text) :=
  ⟨text, [], (List.append_nil text).symm, rfl⟩

theorem byteLength_pos (h : text ≠ []) : 0 < byteLength text := by
  obtain ⟨c, rest, rfl⟩ := List.exists_cons_of_ne_nil h
  have := c.utf8Size_pos
  rw [byteLength_cons]
  omega

end Text

namespace Folding

variable {mode : Mode} {offset : Nat} {text : List Char} {mark : Mark} {front back : List Mark}

/-- A fold marks or drops a character, and goes on. -/
theorem foldFrom_cons_cases (mode : Mode) (offset : Nat) (c : Char) (text : List Char) :
    ((mode.isVerbatim = true ∨ Text.isBlank c = false) ∧
      foldFrom mode offset (c :: text) =
        ⟨c, offset, mode⟩ :: foldFrom (mode.next c text) (offset + c.utf8Size) text) ∨
    (mode.isVerbatim = false ∧ Text.isBlank c = true ∧
      foldFrom mode offset (c :: text) = foldFrom mode (offset + c.utf8Size) text) := by
  rw [foldFrom]
  split
  next h => exact .inl ⟨by simpa using h, rfl⟩
  next h =>
    simp only [Bool.or_eq_true, Bool.not_eq_true', not_or, Bool.not_eq_true,
      Bool.not_eq_false] at h
    exact .inr ⟨h.1, h.2, by rw [Mode.next_of_blank h.2]⟩

/-- What a mark tells about the text: which character it stands for, where the fold stood in front
of it, and what is folded after it. -/
theorem foldFrom_eq_append (h : foldFrom mode offset text = front ++ mark :: back) :
    ∃ before after, text = before ++ mark.char :: after ∧
      mark.offset = offset + Text.byteLength before ∧
      mark.mode = mode.through before (mark.char :: after) ∧
      Folding.text front = kept mode before (mark.char :: after) ∧
      back = foldFrom (mark.mode.next mark.char after) mark.stop after := by
  induction text generalizing mode offset front with
  | nil => simp [foldFrom] at h
  | cons c text ih =>
    rcases foldFrom_cons_cases mode offset c text with ⟨keeps, heq⟩ | ⟨hm, hc, heq⟩
    · rw [heq] at h
      cases front with
      | nil =>
        obtain ⟨rfl, rfl⟩ := List.cons.inj h
        exact ⟨[], text, rfl, rfl, rfl, rfl, rfl⟩
      | cons first front =>
        obtain ⟨rfl, hothers⟩ := List.cons.inj h
        obtain ⟨before, after, rfl, hoffset, hmode, hfront, hback⟩ := ih hothers
        refine ⟨c :: before, after, rfl, ?_, hmode, ?_, hback⟩
        · rw [hoffset, Text.byteLength_cons, Nat.add_assoc]
        · rw [kept_cons_of_keeps keeps, ← hfront]
          rfl
    · rw [heq] at h
      obtain ⟨before, after, rfl, hoffset, hmode, hfront, hback⟩ := ih h
      refine ⟨c :: before, after, rfl, ?_, ?_, ?_, hback⟩
      · rw [hoffset, Text.byteLength_cons, Nat.add_assoc]
      · rw [Mode.through_cons, Mode.next_of_blank hc, hmode]
      · rw [kept_cons_of_drops hm hc, hfront]

/-! ### Offsets -/

theorem exists_of_mem_foldFrom (h : mark ∈ foldFrom mode offset text) :
    ∃ before after, text = before ++ mark.char :: after ∧
      mark.offset = offset + Text.byteLength before := by
  obtain ⟨front, back, heq⟩ := List.append_of_mem h
  obtain ⟨before, after, htext, hoffset, -⟩ := foldFrom_eq_append heq
  exact ⟨before, after, htext, hoffset⟩

theorem Mark.offset_lt_stop (mark : Mark) : mark.offset < mark.stop :=
  Nat.lt_add_of_pos_right mark.char.utf8Size_pos

/-- A mark lies inside of the text that is folded. -/
theorem bounds_of_mem_foldFrom (h : mark ∈ foldFrom mode offset text) :
    offset ≤ mark.offset ∧ mark.stop ≤ offset + Text.byteLength text := by
  obtain ⟨before, after, rfl, hoffset⟩ := exists_of_mem_foldFrom h
  rw [Text.byteLength_append, Text.byteLength_cons, Mark.stop]
  omega

/-- Marks stand in the order of the text. -/
theorem stop_le_offset (h : foldFrom mode offset text = front ++ mark :: back) :
    ∀ other ∈ back, mark.stop ≤ other.offset := by
  intro other hmem
  obtain ⟨_, _, -, -, -, -, rfl⟩ := foldFrom_eq_append h
  exact (bounds_of_mem_foldFrom hmem).1

theorem offset_lt_offset (h : foldFrom mode offset text = front ++ mark :: back) :
    ∀ other ∈ front, other.offset < mark.offset := by
  intro other hmem
  obtain ⟨first, second, rfl⟩ := List.append_of_mem hmem
  rw [List.append_assoc, List.cons_append] at h
  have := stop_le_offset h mark (by simp)
  have := other.offset_lt_stop
  omega

/-- A text can be cut where some of its marks end, and what follows is folded there. -/
theorem exists_cut {own others : List Mark} (h : foldFrom mode offset text = own ++ others)
    (hne : own ≠ []) :
    ∃ before after mode', text = before ++ after ∧ before ≠ [] ∧
      own.getLast?.elim offset Mark.stop = offset + Text.byteLength before ∧
      (∀ mark ∈ own, offset ≤ mark.offset ∧ mark.offset < offset + Text.byteLength before) ∧
      foldFrom mode' (offset + Text.byteLength before) after = others := by
  obtain ⟨front, mark, rfl⟩ := (List.eq_nil_or_concat own).resolve_left hne
  rw [List.concat_eq_append, List.append_assoc, List.singleton_append] at h
  obtain ⟨before, after, rfl, hoffset, -, -, hothers⟩ := foldFrom_eq_append h
  have hstop : mark.stop = offset + Text.byteLength (before ++ [mark.char]) := by
    rw [Mark.stop, hoffset, Text.byteLength_append, Text.byteLength_cons, Text.byteLength_nil]
    omega
  refine ⟨before ++ [mark.char], after, _, by simp, by simp, ?_, fun other hmem => ?_,
    hstop ▸ hothers.symm⟩
  · simp [hstop]
  · rw [List.concat_eq_append] at hmem
    have hfold : other ∈ foldFrom mode offset (before ++ mark.char :: after) := by
      rw [h, List.append_cons]
      exact List.mem_append_left others hmem
    refine ⟨(bounds_of_mem_foldFrom hfold).1, hstop ▸ ?_⟩
    have hlast := mark.offset_lt_stop
    rcases List.mem_append.mp hmem with hmem | hmem
    · exact Nat.lt_trans (offset_lt_offset h other hmem) hlast
    · rwa [List.mem_singleton.mp hmem]

/-- A mark stands for the character at its offset. -/
theorem at_of_mem_fold (h : mark ∈ fold text) : Text.At text mark.offset mark.char := by
  obtain ⟨before, after, htext, hoffset⟩ := exists_of_mem_foldFrom h
  exact ⟨before, after, htext, by rw [hoffset, Nat.zero_add]⟩

/-- A character that is not blank has a mark. -/
theorem exists_mem_foldFrom {before after : List Char} {c : Char} (hc : Text.isBlank c = false)
    (h : text = before ++ c :: after) :
    ∃ mark ∈ foldFrom mode offset text, mark.offset = offset + Text.byteLength before := by
  induction before generalizing mode offset text with
  | nil =>
    subst h
    rcases foldFrom_cons_cases mode offset c after with ⟨-, heq⟩ | ⟨-, hblank, -⟩
    · exact ⟨⟨c, offset, mode⟩, by rw [List.nil_append, heq]; exact List.mem_cons_self, rfl⟩
    · rw [hc] at hblank
      contradiction
  | cons d before ih =>
    subst h
    rw [List.cons_append]
    rcases foldFrom_cons_cases mode offset d (before ++ c :: after) with
      ⟨-, heq⟩ | ⟨-, -, heq⟩
    all_goals
      rw [heq]
      obtain ⟨mark, hmem, hoffset⟩ := ih rfl
    · refine ⟨mark, List.mem_cons_of_mem _ hmem, ?_⟩
      rw [hoffset, Text.byteLength_cons, Nat.add_assoc]
    · refine ⟨mark, hmem, ?_⟩
      rw [hoffset, Text.byteLength_cons, Nat.add_assoc]

theorem isBlank_of_not_mem_fold {c : Char} (h : Text.At text offset c)
    (hmark : ∀ mark ∈ fold text, mark.offset ≠ offset) : Text.isBlank c = true := by
  rw [← Bool.not_eq_false]
  intro hc
  obtain ⟨before, after, htext, hoffset⟩ := h
  obtain ⟨mark, hmem, heq⟩ : ∃ mark ∈ fold text, mark.offset = 0 + Text.byteLength before :=
    exists_mem_foldFrom hc htext
  exact hmark mark hmem (by rw [heq, Nat.zero_add, hoffset])

/-! ### Modes -/

/-- A fold that reads what it kept stands in the same modes. -/
theorem mode_eq_through (h : foldFrom mode offset text = front ++ mark :: back) :
    mark.mode = mode.through (Folding.text front) (mark.char :: Folding.text back) := by
  obtain ⟨before, after, -, -, hmode, hfront, rfl⟩ := foldFrom_eq_append h
  have hcontent : Text.content (mark.char :: Folding.text
      (foldFrom (mark.mode.next mark.char after) mark.stop after)) =
        Text.content (mark.char :: after) := by
    rw [text_foldFrom]
    cases hc : Text.isBlank mark.char with
    | true => rw [Text.content_cons_of_blank hc, Text.content_cons_of_blank hc, content_kept]
    | false =>
      rw [Text.content_cons_of_not_blank hc, Text.content_cons_of_not_blank hc, content_kept]
  rw [hfront, Mode.through_congr hcontent, (kept_kept mode before (mark.char :: after)).2, hmode]

end Folding

end PocketBasic
