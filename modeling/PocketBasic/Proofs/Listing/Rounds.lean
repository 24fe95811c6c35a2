import PocketBasic.Proofs.Listing.ReadBack

/-! The rounds of settling. Each one marks a culprit, lists it as it was typed and reads the new
listing back. That listing may have more tokens than the line or fewer, so nothing about its text
tells that there is an end. What does is the choice of the culprit: it is a keyword that is still
expanded, and the round leaves one expanded keyword less (`Rounds.length_add_countP`). Rounds are
put down as a relation that does not know about an end (`Rounds`), and settling goes through them
until there is no culprit (`rounds_settle`). What a round marks is an expanded keyword that was not
marked before (`Rounds.culprit_spec`), and so is all that settling keeps
(`exists_expanded_of_mem_settle`). -/

namespace PocketBasic.Listing

open Lexeme

variable {table : Keyword.Table} {entries after : List Entry} {marked front back : List Nat}
  {i : Nat}

/-! ### Positions -/

/-- Lists the entries at the positions as they were typed. -/
def keepAll (positions : List Nat) (entries : List Entry) : List Entry :=
  positions.foldl (fun entries i => keep i entries) entries

@[simp] theorem keepAll_nil (entries : List Entry) : keepAll [] entries = entries := rfl

@[simp] theorem keepAll_cons (i : Nat) (positions : List Nat) (entries : List Entry) :
    keepAll (i :: positions) entries = keepAll positions (keep i entries) := rfl

theorem keepAll_concat (positions : List Nat) (i : Nat) (entries : List Entry) :
    keepAll (positions ++ [i]) entries = keep i (keepAll positions entries) := by
  simp [keepAll]

theorem getElem?_keepAll (positions : List Nat) (entries : List Entry) (j : Nat) :
    (keepAll positions entries)[j]? = (entries[j]?).map fun entry =>
      { entry with asTyped := entry.asTyped || positions.contains j } := by
  induction positions generalizing entries with
  | nil => simp
  | cons i positions ih =>
    rw [keepAll_cons, ih, keep, List.getElem?_modify, List.contains_cons]
    cases entries[j]? with
    | none => rfl
    | some entry =>
      rcases eq_or_ne i j with rfl | hne
      · simp
      · have hne' : (j == i) = false := by simpa using hne.symm
        simp [hne, hne']

/-! ### Rounds -/

/-- The rounds that lead from some entries to others, with the positions that they mark. As long as
there is a culprit, a next round lists it as it was typed. -/
inductive Rounds (table : Keyword.Table) (entries : List Entry) :
    List Nat → List Entry → Prop where
  | refl : Rounds table entries [] entries
  | next {marked : List Nat} {after : List Entry} {i : Nat}
      (rounds : Rounds table entries marked after) (blamed : culprit? table after = some i) :
      Rounds table entries (marked ++ [i]) (keep i after)

namespace Rounds

/-- Rounds change nothing but how the positions that they mark are listed. -/
theorem eq_keepAll (rounds : Rounds table entries marked after) :
    after = keepAll marked entries := by
  induction rounds with
  | refl => rfl
  | next _ _ ih => rw [ih, keepAll_concat]

/-- Each round leaves one expanded keyword less. -/
theorem length_add_countP (rounds : Rounds table entries marked after) :
    marked.length + after.countP (·.isExpanded table) = entries.countP (·.isExpanded table) := by
  induction rounds with
  | refl => simp
  | next _ blamed ih =>
    obtain ⟨entry, found, isExpanded⟩ := isExpanded_of_culprit? blamed
    have hcount := countP_keep found isExpanded
    rw [List.length_append, List.length_singleton]
    omega

/-- The culprit is a keyword that was expanded from the start, and that no round has marked. -/
theorem culprit_spec (rounds : Rounds table entries marked after)
    (blamed : culprit? table after = some i) :
    i ∉ marked ∧ ∃ entry, entries[i]? = some entry ∧ entry.isExpanded table = true := by
  obtain ⟨entry, found, isExpanded⟩ := isExpanded_of_culprit? blamed
  rw [rounds.eq_keepAll, getElem?_keepAll, Option.map_eq_some_iff] at found
  obtain ⟨before, hbefore, rfl⟩ := found
  simp only [Entry.isExpanded, Bool.and_eq_true, Bool.not_eq_true', Bool.or_eq_false_iff,
    List.contains_eq_mem, decide_eq_false_iff_not] at isExpanded
  obtain ⟨⟨⟨htyped, hnew⟩, hrem⟩, hspelling⟩ := isExpanded
  refine ⟨hnew, before, hbefore, ?_⟩
  simp only [Entry.isExpanded, htyped, hrem, hspelling, Bool.not_false, Bool.and_self]

/-- A round may be put in front of others. -/
theorem cons (blamed : culprit? table entries = some i)
    (rounds : Rounds table (keep i entries) marked after) :
    Rounds table entries (i :: marked) after := by
  induction rounds with
  | refl => exact .next .refl blamed
  | next _ blamed' ih => exact .next ih blamed'

/-- A position that is marked was blamed after the rounds in front of it. -/
theorem exists_front (rounds : Rounds table entries (front ++ i :: back) after) :
    ∃ between, Rounds table entries front between ∧ culprit? table between = some i := by
  generalize hmarked : front ++ i :: back = marked at rounds
  induction rounds generalizing back with
  | refl => simp at hmarked
  | @next marked between j rounds blamed ih =>
    rcases List.eq_nil_or_concat back with rfl | ⟨back, last, rfl⟩
    · obtain ⟨rfl, rfl⟩ := List.append_singleton_inj.mp hmarked
      exact ⟨between, rounds, blamed⟩
    · rw [List.concat_eq_append, ← List.cons_append, ← List.append_assoc] at hmarked
      exact ih (List.append_inj_left' hmarked rfl)

end Rounds

/-! ### Settling -/

theorem settle_of_none (h : culprit? table entries = none) :
    settle table entries = (entries, []) := by
  rw [settle]
  split
  next => rfl
  next heq => rw [h] at heq; contradiction

theorem settle_of_some (h : culprit? table entries = some i) :
    settle table entries =
      ((settle table (keep i entries)).1, i :: (settle table (keep i entries)).2) := by
  rw [settle]
  split
  next heq => rw [h] at heq; contradiction
  next heq =>
    rw [h] at heq
    cases heq
    rfl

/-- Whatever rounds have gone before, settling goes on from there. -/
theorem Rounds.settle_eq (rounds : Rounds table entries marked after) :
    settle table entries = ((settle table after).1, marked ++ (settle table after).2) := by
  induction rounds with
  | refl => rfl
  | next _ blamed ih =>
    rw [ih, settle_of_some blamed, List.append_assoc, List.singleton_append]

/-- Settling goes through rounds until there is no culprit. -/
theorem rounds_settle (table : Keyword.Table) (entries : List Entry) :
    Rounds table entries (settle table entries).2 (settle table entries).1 := by
  fun_induction settle table entries with
  | case1 => exact .refl
  | case2 entries i blamed settled kept hsettle ih =>
    rw [hsettle] at ih
    exact ih.cons blamed

/-- Only keywords that a listing expands are kept, and they are listed as they were typed. -/
theorem exists_expanded_of_mem_settle (h : i ∈ (settle table entries).2) :
    ∃ entry, entries[i]? = some entry ∧ entry.isExpanded table = true ∧
      (settle table entries).1[i]? = some { entry with asTyped := true } := by
  have rounds := rounds_settle table entries
  obtain ⟨front, back, hcut⟩ := List.append_of_mem h
  obtain ⟨between, hfront, blamed⟩ := (hcut ▸ rounds).exists_front
  obtain ⟨-, entry, hfound, hexpanded⟩ := hfront.culprit_spec blamed
  refine ⟨entry, hfound, hexpanded, ?_⟩
  rw [rounds.eq_keepAll, getElem?_keepAll, hfound]
  simp [h]

end PocketBasic.Listing
