import PocketBasic.Text.Offset

/-! Bytes. Offsets count the bytes of a text in UTF-8, and a character takes up to four of them. So
there is a byte at every offset inside of a text, but the text can be cut only at those that fall
between two characters. -/

namespace PocketBasic.Text

variable {text before after : List Char} {c : Char} {offset k : Nat}

def bytes (text : List Char) : List UInt8 :=
  text.flatMap String.utf8EncodeChar

/-- The part of a text between two offsets. There is none if the offsets are out of order, or if one
of them falls inside of a character or beyond the end. -/
def slice? (text : List Char) (start stop : Nat) : Option (List Char) :=
  if start ≤ stop then
    (takeBytes? text start).bind fun front => takeBytes? (text.drop front.length) (stop - start)
  else none

@[simp] theorem bytes_append (a b : List Char) : bytes (a ++ b) = bytes a ++ bytes b :=
  List.flatMap_append

@[simp] theorem bytes_cons (c : Char) (text : List Char) :
    bytes (c :: text) = String.utf8EncodeChar c ++ bytes text := rfl

@[simp] theorem length_bytes (text : List Char) : (bytes text).length = byteLength text := by
  induction text with
  | nil => rfl
  | cons c text ih => rw [bytes_cons, List.length_append, ih, String.length_utf8EncodeChar]; rfl

/-- The bytes of a character stand from its offset on. -/
theorem getElem?_bytes (before after : List Char) (hk : k < c.utf8Size) :
    (bytes (before ++ c :: after))[byteLength before + k]? =
      (String.utf8EncodeChar c)[k]? := by
  rw [bytes_append, List.getElem?_append_right (by simp), length_bytes, Nat.add_sub_cancel_left,
    bytes_cons, List.getElem?_append_left (by rwa [String.length_utf8EncodeChar])]

theorem exists_of_lt_byteLength (h : offset < byteLength text) :
    ∃ before c after k, text = before ++ c :: after ∧ k < c.utf8Size ∧
      offset = byteLength before + k := by
  induction text generalizing offset with
  | nil => exact absurd h (Nat.not_lt_zero offset)
  | cons c text ih =>
    rcases Nat.lt_or_ge offset c.utf8Size with hlt | hge
    · exact ⟨[], c, text, offset, rfl, hlt, (Nat.zero_add offset).symm⟩
    · rw [byteLength_cons] at h
      have hrest : offset - c.utf8Size < byteLength text := by omega
      obtain ⟨before, d, after, k, rfl, hk, hoffset⟩ := ih hrest
      refine ⟨c :: before, d, after, k, rfl, hk, ?_⟩
      rw [byteLength_cons]
      omega

/-- Characters do not overlap. -/
theorem byteLength_apart {before' after' : List Char} {d : Char}
    (h : before ++ c :: after = before' ++ d :: after') :
    before = before' ∧ c = d ∨
      byteLength before + c.utf8Size ≤ byteLength before' ∨
      byteLength before' + d.utf8Size ≤ byteLength before := by
  rcases List.append_eq_append_iff.mp h with ⟨between, rfl, hcons⟩ | ⟨between, rfl, hcons⟩
  all_goals
    cases between with
    | nil => simp_all
    | cons e between =>
      obtain ⟨rfl, -⟩ := List.cons.inj hcons
      rw [byteLength_append, byteLength_cons]
      omega

theorem slice?_eq_some_iff {part : List Char} {start stop : Nat} :
    slice? text start stop = some part ↔
      ∃ before after, text = before ++ part ++ after ∧ byteLength before = start ∧
        byteLength (before ++ part) = stop := by
  rw [slice?]
  constructor
  · intro h
    split at h
    next hle =>
      obtain ⟨front, hfront, hpart⟩ := Option.bind_eq_some_iff.mp h
      obtain ⟨⟨rest, rfl⟩, hstart⟩ := takeBytes?_eq_some_iff.mp hfront
      rw [List.drop_left] at hpart
      obtain ⟨⟨after, rfl⟩, hlength⟩ := takeBytes?_eq_some_iff.mp hpart
      refine ⟨front, after, by rw [List.append_assoc], hstart, ?_⟩
      rw [byteLength_append]
      omega
    next => contradiction
  · rintro ⟨before, after, rfl, rfl, rfl⟩
    rw [byteLength_append, if_pos (Nat.le_add_right _ _), List.append_assoc,
      takeBytes?_eq_some_iff.mpr ⟨List.prefix_append .., rfl⟩, Option.bind_some, List.drop_left,
      Nat.add_sub_cancel_left, takeBytes?_eq_some_iff.mpr ⟨List.prefix_append .., rfl⟩]

end PocketBasic.Text
