import PocketBasic.Text.Bytes

/-! ASCII in UTF-8. An ASCII character is its own byte, and no byte of another character is ASCII. So
a function that tells only ASCII characters apart gives the same for a character and for any of its
bytes (`ReadsAscii.eq_of_mem`), and a word of ASCII characters is found among the bytes of a text
only where it stands in the text (`bytes_prefix_drop_iff`). -/

namespace PocketBasic.Text

/-- The function gives the same for all characters beyond ASCII. -/
def ReadsAscii {α : Type} (f : Char → α) : Prop :=
  ∀ c d, 128 ≤ c.toNat → 128 ≤ d.toNat → f c = f d

/-- All characters of the word are ASCII. -/
def IsAscii (word : List Char) : Prop :=
  ∀ c ∈ word, c.toNat < 128

instance (word : List Char) : Decidable (IsAscii word) :=
  inferInstanceAs (Decidable (∀ c ∈ word, c.toNat < 128))

variable {text before after word : List Char} {c : Char} {byte : UInt8} {offset : Nat}

theorem toNat_ofUInt8 (byte : UInt8) : (Char.ofUInt8 byte).toNat = byte.toNat :=
  UInt8.toNat_toUInt32 byte

/-- A byte of a character is the character itself, or both lie beyond ASCII. -/
theorem ascii_of_mem_utf8EncodeChar (h : byte ∈ String.utf8EncodeChar c) :
    c.toNat < 128 ∧ String.utf8EncodeChar c = [byte] ∧ Char.ofUInt8 byte = c ∨
      128 ≤ c.toNat ∧ 128 ≤ (Char.ofUInt8 byte).toNat := by
  rw [toNat_ofUInt8]
  have hval : c.val.toNat = c.toNat := rfl
  unfold String.utf8EncodeChar at h ⊢
  dsimp only at h ⊢
  split at h
  next hle =>
    obtain rfl := List.mem_singleton.mp h
    refine .inl ⟨by omega, if_pos hle, Char.toNat_inj.mp ?_⟩
    rw [toNat_ofUInt8, UInt8.toNat_ofNat', hval]
    omega
  next hlt =>
    refine .inr ⟨by omega, ?_⟩
    have large {n : Nat} (hn : 128 ≤ n % 256) : 128 ≤ (UInt8.ofNat n).toNat := by
      rwa [UInt8.toNat_ofNat']
    split at h
    next =>
      simp only [List.mem_cons, List.not_mem_nil, or_false] at h
      rcases h with rfl | rfl <;> exact large (by omega)
    next =>
      split at h
      next =>
        simp only [List.mem_cons, List.not_mem_nil, or_false] at h
        rcases h with rfl | rfl | rfl <;> exact large (by omega)
      next =>
        simp only [List.mem_cons, List.not_mem_nil, or_false] at h
        rcases h with rfl | rfl | rfl | rfl <;> exact large (by omega)

theorem utf8EncodeChar_of_ascii (h : c.toNat < 128) :
    ∃ byte, String.utf8EncodeChar c = [byte] ∧ Char.ofUInt8 byte = c := by
  obtain ⟨byte, hmem⟩ := List.exists_mem_of_ne_nil _ (String.utf8EncodeChar_ne_nil (c := c))
  rcases ascii_of_mem_utf8EncodeChar hmem with ⟨-, heq, hchar⟩ | ⟨hle, -⟩
  · exact ⟨byte, heq, hchar⟩
  · omega

theorem utf8Size_of_ascii (h : c.toNat < 128) : c.utf8Size = 1 := by
  obtain ⟨byte, heq, -⟩ := utf8EncodeChar_of_ascii h
  rw [← String.length_utf8EncodeChar, heq]
  rfl

/-- ASCII characters take one byte each. -/
theorem IsAscii.byteLength_eq (hword : IsAscii word) : byteLength word = word.length := by
  induction word with
  | nil => rfl
  | cons c word ih =>
    obtain ⟨hc, hothers⟩ := List.forall_mem_cons.mp hword
    rw [byteLength_cons, utf8Size_of_ascii hc, ih hothers, List.length_cons, Nat.add_comm]

/-! ### Functions of bytes -/

theorem readsAscii_of {α : Type} {f : Char → α} (a : α) (h : ∀ c, 128 ≤ c.toNat → f c = a) :
    ReadsAscii f :=
  fun c d hc hd => (h c hc).trans (h d hd).symm

theorem ReadsAscii.eq_of_mem {α : Type} {f : Char → α} (hf : ReadsAscii f)
    (h : byte ∈ String.utf8EncodeChar c) : f (Char.ofUInt8 byte) = f c := by
  rcases ascii_of_mem_utf8EncodeChar h with ⟨-, -, hchar⟩ | ⟨hc, hbyte⟩
  · rw [hchar]
  · exact hf _ _ hbyte hc

/-! ### Words among bytes -/

theorem drop_bytes (before after : List Char) :
    (bytes (before ++ after)).drop (byteLength before) = bytes after := by
  rw [bytes_append, ← length_bytes, List.drop_left]

/-- In front of a character, an ASCII byte is the character. -/
theorem cons_prefix_bytes_iff {bs : List UInt8} {d : Char}
    (hd : String.utf8EncodeChar d = [byte]) (hchar : Char.ofUInt8 byte = d) (hascii : d.toNat < 128) :
    byte :: bs <+: bytes (c :: text) ↔ c = d ∧ bs <+: bytes text := by
  rw [bytes_cons]
  constructor
  · intro h
    have hmem : byte ∈ String.utf8EncodeChar c := by
      cases hc : String.utf8EncodeChar c with
      | nil => exact absurd hc String.utf8EncodeChar_ne_nil
      | cons first others =>
        rw [hc, List.cons_append] at h
        rw [(List.cons_prefix_cons.mp h).1]
        exact List.mem_cons_self
    rcases ascii_of_mem_utf8EncodeChar hmem with ⟨-, heq, hc⟩ | ⟨-, hbyte⟩
    · rw [heq, List.singleton_append] at h
      exact ⟨hc.symm.trans hchar, (List.cons_prefix_cons.mp h).2⟩
    · rw [hchar] at hbyte
      omega
  · rintro ⟨rfl, h⟩
    rw [hd, List.singleton_append]
    exact List.cons_prefix_cons.mpr ⟨rfl, h⟩

theorem bytes_prefix_iff (hword : IsAscii word) : bytes word <+: bytes text ↔ word <+: text := by
  induction word generalizing text with
  | nil => simp [bytes]
  | cons d word ih =>
    have hd := hword d List.mem_cons_self
    obtain ⟨byte, heq, hchar⟩ := utf8EncodeChar_of_ascii hd
    have cons_eq : bytes (d :: word) = byte :: bytes word := by
      rw [bytes_cons, heq, List.singleton_append]
    rw [cons_eq]
    cases text with
    | nil => simp [bytes]
    | cons c text =>
      rw [cons_prefix_bytes_iff heq hchar hd, List.cons_prefix_cons, eq_comm (a := c),
        ih fun e he => hword e (List.mem_cons_of_mem _ he)]

/-- A word is found among the bytes of a text where it stands in the text and nowhere else. -/
theorem bytes_prefix_drop_iff (hword : IsAscii word) (hne : word ≠ []) :
    bytes word <+: (bytes text).drop offset ↔
      ∃ before after, text = before ++ word ++ after ∧ byteLength before = offset := by
  constructor
  · intro h
    obtain ⟨d, others, rfl⟩ := List.exists_cons_of_ne_nil hne
    have hd := hword d List.mem_cons_self
    obtain ⟨byte, heq, hchar⟩ := utf8EncodeChar_of_ascii hd
    have hbyte : (bytes text)[offset]? = some byte := by
      obtain ⟨more, hmore⟩ := h
      rw [← Nat.add_zero offset, ← List.getElem?_drop, ← hmore, bytes_cons, heq]
      rfl
    have hlt : offset < byteLength text :=
      length_bytes text ▸ (List.getElem?_eq_some_iff.mp hbyte).1
    -- the first byte of the word is a character of the text, since it is ASCII
    obtain ⟨before, c, after, k, rfl, hk, rfl⟩ := exists_of_lt_byteLength hlt
    rw [getElem?_bytes before after hk] at hbyte
    rcases ascii_of_mem_utf8EncodeChar (List.mem_of_getElem? hbyte) with ⟨-, hc, -⟩ | ⟨-, hle⟩
    · obtain rfl : k = 0 := by
        rw [← String.length_utf8EncodeChar, hc, List.length_singleton] at hk
        omega
      rw [Nat.add_zero, drop_bytes, bytes_prefix_iff hword] at h
      obtain ⟨more, hmore⟩ := h
      exact ⟨before, more, by rw [List.append_assoc, hmore], rfl⟩
    · rw [hchar] at hle
      omega
  · rintro ⟨before, after, rfl, rfl⟩
    rw [List.append_assoc, drop_bytes, bytes_append]
    exact List.prefix_append ..

/-! ### Reading at an offset -/

/-- From the offset on, the text goes on with `rest`. -/
def Leaves (text : List Char) (offset : Nat) (rest : List Char) : Prop :=
  ∃ front, text = front ++ rest ∧ byteLength front = offset

theorem leaves_zero (text : List Char) : Leaves text 0 text :=
  ⟨[], rfl, rfl⟩

namespace Leaves

variable {rest : List Char} {k : Nat}

theorem byteLength_eq (h : Leaves text offset rest) :
    byteLength text = offset + byteLength rest := by
  obtain ⟨front, rfl, rfl⟩ := h
  exact byteLength_append ..

theorem append (h : Leaves text offset (before ++ after)) :
    Leaves text (offset + byteLength before) after := by
  obtain ⟨front, rfl, rfl⟩ := h
  exact ⟨front ++ before, (List.append_assoc ..).symm, byteLength_append ..⟩

theorem drop (h : Leaves text offset rest) (n : Nat) :
    Leaves text (offset + byteLength (rest.take n)) (rest.drop n) :=
  append ((List.take_append_drop n rest).symm ▸ h)

theorem cons (h : Leaves text offset (c :: rest)) : Leaves text (offset + c.utf8Size) rest := by
  have happend : Leaves text offset ([c] ++ rest) := h
  simpa using happend.append

theorem tail (h : Leaves text offset (c :: rest)) (hc : c.toNat < 128) :
    Leaves text (offset + 1) rest :=
  utf8Size_of_ascii hc ▸ h.cons

theorem slice?_eq (h : Leaves text offset (before ++ after)) :
    slice? text offset (offset + byteLength before) = some before := by
  obtain ⟨front, rfl, rfl⟩ := h
  exact slice?_eq_some_iff.mpr
    ⟨front, after, (List.append_assoc ..).symm, rfl, byteLength_append ..⟩

theorem drop_bytes (h : Leaves text offset rest) : (bytes text).drop offset = bytes rest := by
  obtain ⟨front, rfl, rfl⟩ := h
  exact Text.drop_bytes ..

/-- The bytes of the character at an offset. -/
theorem exists_byte (h : Leaves text offset (c :: rest)) (hk : k < c.utf8Size) :
    ∃ byte ∈ String.utf8EncodeChar c, (bytes text)[offset + k]? = some byte := by
  obtain ⟨front, rfl, rfl⟩ := h
  have hlt : k < (String.utf8EncodeChar c).length := by rwa [String.length_utf8EncodeChar]
  refine ⟨_, List.getElem_mem hlt, ?_⟩
  rw [getElem?_bytes front rest hk, List.getElem?_eq_getElem hlt]

/-- The byte at an offset is read as the character there. -/
theorem getElem?_eq {α : Type} {f : Char → α} (h : Leaves text offset rest) (hf : ReadsAscii f) :
    (bytes text)[offset]?.map (fun byte => f (Char.ofUInt8 byte)) = rest.head?.map f := by
  cases rest with
  | nil =>
    rw [List.getElem?_eq_none (by simp [h.byteLength_eq])]
    rfl
  | cons c rest =>
    obtain ⟨byte, hmem, hbyte⟩ := h.exists_byte c.utf8Size_pos
    rw [Nat.add_zero] at hbyte
    rw [hbyte, Option.map_some, hf.eq_of_mem hmem]
    rfl

theorem bind_getElem? {α : Type} {f : Char → Option α} (h : Leaves text offset rest)
    (hf : ReadsAscii f) :
    ((bytes text)[offset]?.map Char.ofUInt8).bind f = rest.head?.bind f := by
  have hmap := h.getElem?_eq hf
  cases hbyte : (bytes text)[offset]? <;> cases hhead : rest.head? <;> simp_all

theorem any_getElem? {p : Char → Bool} (h : Leaves text offset rest) (hp : ReadsAscii p) :
    ((bytes text)[offset]?.map Char.ofUInt8).any p = rest.head?.any p := by
  have hmap := h.getElem?_eq hp
  cases hbyte : (bytes text)[offset]? <;> cases hhead : rest.head? <;> simp_all

end Leaves

end PocketBasic.Text
