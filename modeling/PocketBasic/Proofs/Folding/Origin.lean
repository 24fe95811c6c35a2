import PocketBasic.Proofs.Folding.Marks
import PocketBasic.Proofs.Folding.Outside
import PocketBasic.Text.Bytes

/-! The offset map of a fold. It is put together from the offsets of the marks, and marks stand
apart in the order of the text (`pairwise_foldFrom`), so the map is strictly increasing and leads
each byte back to the same byte (`getElem?_origin`). What it leaves out is decided at the characters
without a mark: they are the blanks outside of strings and comments (`exists_mark_iff`). -/

namespace PocketBasic

namespace Folding

variable {mode : Mode} {offset k : Nat} {text before after : List Char} {c : Char} {mark : Mark}
  {marks front back : List Mark}

/-! ### One entry for each byte -/

theorem text_append (a b : List Mark) : Folding.text (a ++ b) = Folding.text a ++ Folding.text b :=
  List.map_append

@[simp] theorem origin_append (a b : List Mark) : origin (a ++ b) = origin a ++ origin b :=
  List.flatMap_append

@[simp] theorem origin_cons (mark : Mark) (marks : List Mark) :
    origin (mark :: marks) = mark.offsets ++ origin marks := rfl

@[simp] theorem Mark.length_offsets (mark : Mark) : mark.offsets.length = mark.char.utf8Size :=
  List.length_range'

theorem length_origin (marks : List Mark) :
    (origin marks).length = Text.byteLength (Folding.text marks) := by
  induction marks with
  | nil => rfl
  | cons mark marks ih => rw [origin_cons, List.length_append, ih, Mark.length_offsets]; rfl

theorem Mark.mem_offsets {n : Nat} : n ∈ mark.offsets ↔ mark.offset ≤ n ∧ n < mark.stop :=
  List.mem_range'_1

theorem mem_origin {n : Nat} :
    n ∈ origin marks ↔ ∃ mark ∈ marks, mark.offset ≤ n ∧ n < mark.stop := by
  simp only [origin, List.mem_flatMap, Mark.mem_offsets]

/-- The map has the offsets of a mark where the character of the mark is kept. -/
theorem take_origin (front back : List Mark) (mark : Mark) :
    ((origin (front ++ mark :: back)).drop (Text.byteLength (Folding.text front))).take
      mark.char.utf8Size = mark.offsets := by
  rw [origin_append, List.drop_left' (length_origin front), origin_cons,
    List.take_left' mark.length_offsets]

theorem exists_of_text_eq {front back : List Char} (h : Folding.text marks = front ++ c :: back) :
    ∃ first mark others, marks = first ++ mark :: others ∧ Folding.text first = front ∧
      mark.char = c := by
  obtain ⟨first, rest, rfl, hfirst, hrest⟩ := List.map_eq_append_iff.mp h
  obtain ⟨mark, others, rfl, hmark, -⟩ := List.map_eq_cons_iff.mp hrest
  exact ⟨first, mark, others, rfl, hfirst, hmark⟩

/-! ### The same bytes in the same order -/

/-- Marks stand apart, in the order of the text. -/
theorem pairwise_foldFrom (mode : Mode) (offset : Nat) (text : List Char) :
    (foldFrom mode offset text).Pairwise fun mark other => mark.stop ≤ other.offset := by
  induction text generalizing mode offset with
  | nil => exact .nil
  | cons c text ih =>
    rcases foldFrom_cons_cases mode offset c text with ⟨-, heq⟩ | ⟨-, -, heq⟩
    · rw [heq]
      exact .cons (fun other hmem => (bounds_of_mem_foldFrom hmem).1) (ih _ _)
    · rw [heq]
      exact ih _ _

theorem pairwise_origin (mode : Mode) (offset : Nat) (text : List Char) :
    (origin (foldFrom mode offset text)).Pairwise (· < ·) := by
  refine List.pairwise_flatMap.mpr ⟨fun mark _ => List.pairwise_lt_range', ?_⟩
  refine (pairwise_foldFrom mode offset text).imp fun {mark other} hle n hn m hm => ?_
  have := (Mark.mem_offsets.mp hn).2
  have := (Mark.mem_offsets.mp hm).1
  omega

/-- The map leads each byte of the folded text back to an equal byte of the text. -/
theorem getElem?_origin {i n : Nat} (h : (origin (fold text))[i]? = some n) :
    n < Text.byteLength text ∧
      (Text.bytes (Folding.text (fold text)))[i]? = (Text.bytes text)[n]? := by
  have hi : i < Text.byteLength (Folding.text (fold text)) :=
    length_origin (fold text) ▸ (List.getElem?_eq_some_iff.mp h).1
  obtain ⟨front, c, back, k, htext, hk, rfl⟩ := Text.exists_of_lt_byteLength hi
  obtain ⟨first, mark, others, hmarks, rfl, rfl⟩ := exists_of_text_eq htext
  obtain ⟨before, after, rfl, hoffset, -⟩ := foldFrom_eq_append hmarks
  rw [hmarks, origin_append, List.getElem?_append_right (by simp [length_origin]), length_origin,
    Nat.add_sub_cancel_left, origin_cons, List.getElem?_append_left (by simpa using hk),
    Mark.offsets, List.getElem?_range' hk, hoffset] at h
  obtain rfl : n = Text.byteLength before + k := by simpa using h.symm
  rw [htext, Text.getElem?_bytes _ _ hk, Text.getElem?_bytes _ _ hk]
  refine ⟨?_, rfl⟩
  rw [Text.byteLength_append, Text.byteLength_cons]
  omega

/-! ### What is left out -/

/-- A character has a mark unless it is a blank outside of strings and comments. -/
theorem exists_mark_iff (mode : Mode) (offset : Nat) (before after : List Char) (c : Char) :
    (∃ mark ∈ foldFrom mode offset (before ++ c :: after),
        mark.offset = offset + Text.byteLength before) ↔
      (mode.through before (c :: after)).isVerbatim = true ∨ Text.isBlank c = false := by
  induction before generalizing mode offset with
  | nil =>
    rcases foldFrom_cons_cases mode offset c after with ⟨keeps, heq⟩ | ⟨hmode, hc, heq⟩
    · refine iff_of_true ⟨⟨c, offset, mode⟩, ?_, rfl⟩ keeps
      rw [List.nil_append, heq]
      exact List.mem_cons_self
    · refine iff_of_false ?_ (by simp [hmode, hc])
      rw [List.nil_append, heq]
      rintro ⟨mark, hmem, hoffset⟩
      have := (bounds_of_mem_foldFrom hmem).1
      have := c.utf8Size_pos
      rw [Text.byteLength_nil] at hoffset
      omega
  | cons d before ih =>
    have ih := ih (mode.next d (before ++ c :: after)) (offset + d.utf8Size)
    rw [Mode.through_cons, ← ih, List.cons_append, Text.byteLength_cons, Nat.add_assoc]
    rcases foldFrom_cons_cases mode offset d (before ++ c :: after) with
      ⟨-, heq⟩ | ⟨-, hd, heq⟩
    · -- the first mark stands at another offset
      have hne : offset ≠ offset + (d.utf8Size + Text.byteLength before) := by
        have := d.utf8Size_pos
        omega
      simp only [heq, List.exists_mem_cons_iff, hne, false_or]
    · rw [heq, Mode.next_of_blank hd]

/-- A byte of a character is in the map if and only if the character has a mark. -/
theorem mem_origin_fold_iff (before after : List Char) (hk : k < c.utf8Size) :
    Text.byteLength before + k ∈ origin (fold (before ++ c :: after)) ↔
      (Mode.code.through before (c :: after)).isVerbatim = true ∨ Text.isBlank c = false := by
  rw [← exists_mark_iff .code 0, Nat.zero_add, mem_origin]
  constructor
  · rintro ⟨mark, hmem, hle, hlt⟩
    obtain ⟨front, back, htext, hoffset⟩ := exists_of_mem_foldFrom hmem
    refine ⟨mark, hmem, ?_⟩
    rw [Mark.stop] at hlt
    rcases Text.byteLength_apart htext with ⟨rfl, -⟩ | hlater | hearlier <;> omega
  · rintro ⟨mark, hmem, hoffset⟩
    obtain ⟨front, back, htext, hfront⟩ := exists_of_mem_foldFrom hmem
    have hchar : c = mark.char := by
      have := mark.char.utf8Size_pos
      rcases Text.byteLength_apart htext with ⟨-, rfl⟩ | hlater | hearlier
      · rfl
      · omega
      · omega
    refine ⟨mark, hmem, by omega, ?_⟩
    rw [Mark.stop, hoffset, ← hchar]
    omega

theorem utf8Size_of_isBlank (h : Text.isBlank c = true) : c.utf8Size = 1 := by
  simp only [Text.isBlank, Bool.or_eq_true, beq_iff_eq] at h
  rcases h with rfl | rfl <;> rfl

/-- The offset map of a fold is exact. It has one entry for each byte that is kept, in the order of
the text; each entry is the offset of an equal byte, and the bytes of a character are led back to
the bytes of one character, in a row. An offset that is left out is that of a space or a tab outside
of strings and comments, and every such offset is left out. -/
theorem fold_origin (text : List Char) :
    (origin (fold text)).length = (Text.bytes (Folding.text (fold text))).length ∧
      (origin (fold text)).Pairwise (· < ·) ∧
      (∀ i offset : Nat, (origin (fold text))[i]? = some offset → offset < Text.byteLength text ∧
        (Text.bytes (Folding.text (fold text)))[i]? = (Text.bytes text)[offset]?) ∧
      (∀ front c back, Folding.text (fold text) = front ++ c :: back →
        ∃ before after, text = before ++ c :: after ∧
          ((origin (fold text)).drop (Text.byteLength front)).take c.utf8Size =
            List.range' (Text.byteLength before) c.utf8Size) ∧
      ∀ offset < Text.byteLength text, offset ∉ origin (fold text) ↔
        ∃ before c after, text = before ++ c :: after ∧ offset = Text.byteLength before ∧
          (c = ' ' ∨ c = '\t') ∧ Outside before := by
  refine ⟨?_, pairwise_origin .code 0 text, fun _ _ h => getElem?_origin h, ?_, ?_⟩
  · rw [length_origin, Text.length_bytes]
  · intro front c back htext
    obtain ⟨first, mark, others, hmarks, rfl, rfl⟩ := exists_of_text_eq htext
    obtain ⟨before, after, heq, hoffset, -⟩ := foldFrom_eq_append hmarks
    refine ⟨before, after, heq, ?_⟩
    rw [hmarks, take_origin, Mark.offsets, hoffset, Nat.zero_add]
  · intro offset hlt
    have isBlank_iff (c : Char) : (c = ' ' ∨ c = '\t') ↔ Text.isBlank c = true := by
      simp [Text.isBlank]
    constructor
    · intro hnot
      obtain ⟨before, c, after, k, rfl, hk, rfl⟩ := Text.exists_of_lt_byteLength hlt
      rw [mem_origin_fold_iff before after hk, not_or, Bool.not_eq_true, ← outside_iff,
        Bool.not_eq_false] at hnot
      have hsize := utf8Size_of_isBlank hnot.2
      exact ⟨before, c, after, rfl, by omega, (isBlank_iff c).mpr hnot.2, hnot.1⟩
    · rintro ⟨before, c, after, rfl, rfl, hc, outside⟩
      rw [← Nat.add_zero (Text.byteLength before), mem_origin_fold_iff before after c.utf8Size_pos,
        not_or, Bool.not_eq_true, ← outside_iff, Bool.not_eq_false]
      exact ⟨outside, (isBlank_iff c).mp hc⟩

end Folding

end PocketBasic
