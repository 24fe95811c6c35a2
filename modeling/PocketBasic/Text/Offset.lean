/-! Offsets. A position in a text is the number of bytes that the characters before it take in
UTF-8, so offsets add up over concatenation. -/

namespace PocketBasic.Text

def byteLength : List Char → Nat
  | [] => 0
  | c :: rest => c.utf8Size + byteLength rest

@[simp] theorem byteLength_nil : byteLength [] = 0 := rfl

@[simp] theorem byteLength_cons (c : Char) (rest : List Char) :
    byteLength (c :: rest) = c.utf8Size + byteLength rest := rfl

@[simp] theorem byteLength_append (a b : List Char) :
    byteLength (a ++ b) = byteLength a + byteLength b := by
  induction a with
  | nil => simp
  | cons c a ih => simp [ih, Nat.add_assoc]

/-- The first `n` bytes of a text, if they end between two characters. -/
def takeBytes? : List Char → Nat → Option (List Char)
  | _, 0 => some []
  | [], _ + 1 => none
  | c :: rest, n + 1 =>
    if c.utf8Size ≤ n + 1 then (takeBytes? rest (n + 1 - c.utf8Size)).map (c :: ·) else none

/-- What is taken is the one front of the text that has the length. -/
theorem takeBytes?_eq_some_iff {text front : List Char} {n : Nat} :
    takeBytes? text n = some front ↔ front <+: text ∧ byteLength front = n := by
  fun_induction takeBytes? text n generalizing front with
  | case1 =>
    constructor
    · rintro ⟨⟩
      exact ⟨List.nil_prefix, rfl⟩
    · rintro ⟨-, hlength⟩
      cases front with
      | nil => rfl
      | cons d front =>
        have := d.utf8Size_pos
        rw [byteLength_cons] at hlength
        omega
  | case2 n =>
    refine iff_of_false nofun ?_
    rintro ⟨hfront, hlength⟩
    rw [List.prefix_nil.mp hfront] at hlength
    contradiction
  | case3 c rest n hle ih =>
    cases front with
    | nil => exact iff_of_false (by simp) fun h => nomatch h.2
    | cons d front =>
      rw [Option.map_eq_some_iff, List.cons_prefix_cons, byteLength_cons]
      constructor
      · rintro ⟨_, htake, ⟨⟩⟩
        obtain ⟨hfront, hlength⟩ := ih.mp htake
        exact ⟨⟨rfl, hfront⟩, by omega⟩
      · rintro ⟨⟨rfl, hfront⟩, hlength⟩
        exact ⟨front, ih.mpr ⟨hfront, by omega⟩, rfl⟩
  | case4 c rest n hlt =>
    refine iff_of_false nofun ?_
    rintro ⟨hfront, hlength⟩
    cases front with
    | nil => contradiction
    | cons d front =>
      obtain ⟨rfl, -⟩ := List.cons_prefix_cons.mp hfront
      rw [byteLength_cons] at hlength
      omega

end PocketBasic.Text
