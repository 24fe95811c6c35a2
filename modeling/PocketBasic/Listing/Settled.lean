import PocketBasic.Listing.Basic

/-! Settling a listing. A full name can change how its neighbours are read: `RES.M` listed as
`RESTORE M` holds a `REM`. As long as a listing does not read back as the line, one keyword that it
spells in full is blamed and goes back to the spelling it was typed with. Every step leaves one
expanded keyword less, so there is an end to it. -/

namespace PocketBasic.Listing

def expanded (table : Keyword.Table) (entries : List Entry) : List Nat :=
  (List.range entries.length).filter fun i => entries[i]?.any (·.isExpanded table)

/-- Of some positions, the last one up to a difference, or else the first one after it. -/
def blame? (positions : List Nat) (difference : Nat) : Option Nat :=
  ((positions.filter (· ≤ difference)).getLast?).or (positions.find? (difference < ·))

/-- Where the listing stops reading back as the line. -/
def difference? (table : Keyword.Table) (entries : List Entry) : Option Nat :=
  firstDifference? (entries.map (·.lexeme.reading table))
    (Reading.ofText table (render table entries))

/-- The position of the keyword to blame, if the listing does not read back as the line. -/
def culprit? (table : Keyword.Table) (entries : List Entry) : Option Nat :=
  (difference? table entries).bind (blame? (expanded table entries))

def keep (i : Nat) (entries : List Entry) : List Entry :=
  entries.modify i fun entry => { entry with asTyped := true }

theorem mem_of_blame? {positions : List Nat} {difference i : Nat}
    (h : blame? positions difference = some i) : i ∈ positions := by
  simp only [blame?, Option.or_eq_some_iff] at h
  rcases h with h | ⟨_, h⟩
  · exact (List.mem_filter.mp (List.mem_of_getLast? h)).1
  · exact List.mem_of_find?_eq_some h

/-- Whoever is blamed is an expanded keyword. -/
theorem isExpanded_of_culprit? {table : Keyword.Table} {entries : List Entry} {i : Nat}
    (h : culprit? table entries = some i) :
    ∃ entry, entries[i]? = some entry ∧ entry.isExpanded table = true := by
  simp only [culprit?, Option.bind_eq_some_iff] at h
  obtain ⟨_, _, h⟩ := h
  have := (List.mem_filter.mp (mem_of_blame? h)).2
  rw [Option.any_eq_true] at this
  exact this

theorem countP_keep {table : Keyword.Table} {entries : List Entry} {i : Nat} {entry : Entry}
    (found : entries[i]? = some entry) (isExpanded : entry.isExpanded table = true) :
    (keep i entries).countP (·.isExpanded table) + 1 = entries.countP (·.isExpanded table) := by
  induction entries generalizing i with
  | nil => simp at found
  | cons first entries ih =>
    cases i with
    | zero =>
      simp only [List.getElem?_cons_zero, Option.some.injEq] at found
      subst found
      have typed : ({ first with asTyped := true } : Entry).isExpanded table = false := rfl
      simp only [keep, List.modify_zero_cons, List.countP_cons, typed, isExpanded]
      simp
    | succ i =>
      have := ih (i := i) (by simpa using found)
      simp only [keep, List.modify_succ_cons, List.countP_cons] at this ⊢
      omega

/-- Keeps one culprit after the other until there is none. Gives the entries of the listing that is
left, and the positions that were kept, first to last. -/
def settle (table : Keyword.Table) (entries : List Entry) : List Entry × List Nat :=
  match _h : culprit? table entries with
  | none => (entries, [])
  | some i =>
    let (settled, kept) := settle table (keep i entries)
    (settled, i :: kept)
termination_by entries.countP (·.isExpanded table)
decreasing_by
  obtain ⟨_, found, isExpanded⟩ := isExpanded_of_culprit? _h
  have := countP_keep found isExpanded
  omega

end PocketBasic.Listing
