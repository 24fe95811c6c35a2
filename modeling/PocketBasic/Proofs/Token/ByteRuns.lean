import PocketBasic.Proofs.Text.Ascii
import PocketBasic.Proofs.Token.Keywords
import PocketBasic.Token.Bytewise

/-! Runs of bytes. A function on bytes that starts between two characters ends where the run of
characters that it looks for does (`Ends`). It passes over the bytes of a longer character one by
one, since they look alike to it, and so it never stops inside of one. -/

namespace PocketBasic

namespace Text

variable {c d : Char}

theorem ne_of_toNat_ge (hd : d.toNat < 128) (hc : 128 ≤ c.toNat) : c ≠ d := by
  rintro rfl
  omega

theorem readsAscii_beq (hd : d.toNat < 128) : ReadsAscii (· == d) :=
  readsAscii_of false fun _ hc => beq_false_of_ne (ne_of_toNat_ge hd hc)

theorem ReadsAscii.or {p q : Char → Bool} (hp : ReadsAscii p) (hq : ReadsAscii q) :
    ReadsAscii fun c => p c || q c := by
  intro c d hc hd
  dsimp only
  rw [hp c d hc hd, hq c d hc hd]

theorem readsAscii_isTerminator : ReadsAscii isTerminator :=
  (readsAscii_beq (by decide)).or (readsAscii_beq (by decide))

theorem isDigit_eq_false (hc : 128 ≤ c.toNat) : c.isDigit = false := by
  rw [Bool.eq_false_iff]
  intro hdigit
  have := (le_of_isDigit hdigit).2
  omega

theorem readsAscii_isDigit : ReadsAscii Char.isDigit :=
  readsAscii_of false fun _ => isDigit_eq_false

theorem toNat_lt_of_isAlpha (hc : c.isAlpha = true) : c.toNat < 128 := by
  rcases Bool.or_eq_true_iff.mp hc with hupper | hlower
  · have := (le_of_isUpper hupper).2
    omega
  · have : c.toNat ≤ 122 :=
      UInt32.le_iff_toNat_le.mp (of_decide_eq_true (Bool.and_eq_true_iff.mp hlower).2)
    omega

theorem readsAscii_isAlpha : ReadsAscii Char.isAlpha :=
  readsAscii_of false fun c hc => by
    rw [Bool.eq_false_iff]
    intro halpha
    have := toNat_lt_of_isAlpha halpha
    omega

theorem toNat_lt_of_ofChar? {symbol : Symbol} (h : Symbol.ofChar? c = some symbol) :
    c.toNat < 128 := by
  unfold Symbol.ofChar? at h
  split at h <;> first | decide | contradiction

theorem readsAscii_ofChar? : ReadsAscii Symbol.ofChar? :=
  readsAscii_of none fun c hc => Option.eq_none_iff_forall_ne_some.mpr fun symbol hsymbol => by
    have := toNat_lt_of_ofChar? hsymbol
    omega

theorem byteLength_of_ofPair? {symbol : Symbol} (h : Symbol.ofPair? c d = some symbol) :
    d.toNat < 128 ∧ byteLength [c, d] = 2 := by
  unfold Symbol.ofPair? at h
  split at h <;> first | decide | contradiction

theorem readsAscii_ofPair? (c : Char) : ReadsAscii (Symbol.ofPair? c) :=
  readsAscii_of none fun d hd => Option.eq_none_iff_forall_ne_some.mpr fun symbol hsymbol => by
    have := (byteLength_of_ofPair? hsymbol).1
    omega

theorem any_beq (o : Option Char) (d : Char) : o.any (· == d) = (o == some d) := by
  cases o <;> rfl

theorem ofUInt8_eq_iff {byte : UInt8} (hmem : byte ∈ String.utf8EncodeChar c)
    (hd : d.toNat < 128) : Char.ofUInt8 byte = d ↔ c = d := by
  have hbeq : (Char.ofUInt8 byte == d) = (c == d) := (readsAscii_beq hd).eq_of_mem hmem
  rw [← beq_iff_eq, hbeq, beq_iff_eq]

end Text

namespace Token.Bytewise

open Lexeme Text

variable {p : Char → Bool} {text rest : List Char} {c : Char} {i : Nat}

/-- In front of every text, the function on bytes ends where the run of characters does. -/
structure Ends (f : List UInt8 → Nat → Option Nat) (run : List Char → Nat) : Prop where
  eq {text rest : List Char} {i : Nat} (h : Leaves text i rest) :
    f (bytes text) i = some (i + byteLength (rest.take (run rest)))

theorem test?_eq (hp : ReadsAscii p) (h : Leaves text i rest) :
    test? p (bytes text) i = some (rest.head?.any p) := by
  rw [test?, h.getElem?_eq hp, length_bytes, h.byteLength_eq]
  cases rest with
  | nil => simp [andThen?]
  | cons c rest =>
    have := c.utf8Size_pos
    rw [andThen?, if_pos (by simpa using Nat.add_pos_left this _)]
    rfl

/-- What is the same at two bytes next to each other is the same after all of them. -/
theorem eq_add_of_succ {α : Type} {g : Nat → α} {n : Nat}
    (h : ∀ k < n, g (i + k) = g (i + k + 1)) : g i = g (i + n) := by
  induction n with
  | zero => rfl
  | succ n ih =>
    rw [ih fun k hk => h k (Nat.lt_succ_of_lt hk), h n (Nat.lt_succ_self n), Nat.add_assoc]

theorem advance?_of_byte {bs : List UInt8} {byte : UInt8} (hbyte : bs[i]? = some byte) :
    advance? p bs i = if p (Char.ofUInt8 byte) then advance? p bs (i + 1) else some i := by
  rw [advance?, if_pos (List.getElem?_eq_some_iff.mp hbyte).1, hbyte]
  rfl

theorem ends_advance? (hp : ReadsAscii p) :
    Ends (advance? p) fun rest => (rest.takeWhile p).length := by
  refine ⟨fun {text rest i} h => ?_⟩
  induction rest generalizing i with
  | nil =>
    have := h.byteLength_eq
    rw [advance?, if_neg (by simp_all)]
    rfl
  | cons c rest ih =>
    cases hc : p c with
    | true =>
      have hskip : advance? p (bytes text) i = advance? p (bytes text) (i + c.utf8Size) := by
        refine eq_add_of_succ fun k hk => ?_
        obtain ⟨byte, hmem, hbyte⟩ := h.exists_byte hk
        rw [advance?_of_byte hbyte, hp.eq_of_mem hmem, if_pos hc]
      rw [hskip, ih h.cons, List.takeWhile_cons_of_pos hc, List.length_cons, List.take_succ_cons,
        byteLength_cons, Nat.add_assoc]
    | false =>
      obtain ⟨byte, hmem, hbyte⟩ := h.exists_byte c.utf8Size_pos
      rw [Nat.add_zero] at hbyte
      rw [advance?_of_byte hbyte, hp.eq_of_mem hmem, List.takeWhile_cons_of_neg (by simp [hc])]
      simp [hc]

theorem ends_digits : Ends (advance? Char.isDigit) digitRun :=
  ends_advance? readsAscii_isDigit

theorem ends_line : Ends endOfLine? lineRun :=
  ends_advance? fun c d hc hd => congrArg (!·) (readsAscii_isTerminator c d hc hd)

/-! ### Numbers -/

/-- One run after the other. -/
theorem Ends.seq {f g : List UInt8 → Nat → Option Nat} {run run' : List Char → Nat}
    (hf : Ends f run) (hg : Ends g run') :
    Ends (fun bs i => (f bs i).bind (g bs)) fun rest => run rest + run' (rest.drop (run rest)) := by
  refine ⟨fun {text rest i} h => ?_⟩
  rw [hf.eq h, Option.bind_some, hg.eq (h.drop _), List.take_add, byteLength_append,
    Nat.add_assoc]

theorem test?_beq {d : Char} (hd : d.toNat < 128) (h : Leaves text i rest) :
    test? (· == d) (bytes text) i = some (rest.head? == some d) := by
  rw [test?_eq (readsAscii_beq hd) h, any_beq]

theorem ends_fraction : Ends endOfFraction? fractionRun := by
  refine ⟨fun {text rest i} h => ?_⟩
  rw [endOfFraction?, test?_beq (by decide) h, Option.bind_eq_bind, Option.bind_some]
  by_cases hpoint : rest.head? = some '.'
  · obtain ⟨digits, rfl⟩ := List.head?_eq_some_iff.mp hpoint
    rw [if_pos (by simp), ends_digits.eq (h.tail (by decide)), fractionRun, Nat.add_comm 1,
      List.take_succ_cons, byteLength_cons, Nat.add_assoc]
    rfl
  · rw [if_neg (by simpa using hpoint), fractionRun_eq_zero hpoint]
    rfl

theorem signRun_eq (text : List Char) :
    signRun text = if text.head?.any (fun c => c == '+' || c == '-') then 1 else 0 := by
  unfold signRun
  split
  next => rfl
  next => rfl
  next hplus hminus =>
    cases text with
    | nil => rfl
    | cons c rest =>
      have hc : c ≠ '+' := fun hc => hplus rest (hc ▸ rfl)
      have hc' : c ≠ '-' := fun hc => hminus rest (hc ▸ rfl)
      simp [hc, hc']

theorem byteLength_sign (text : List Char) :
    byteLength (text.take (signRun text)) = signRun text := by
  unfold signRun
  split <;> rfl

theorem digitRun_eq_zero_iff : digitRun rest = 0 ↔ rest.head?.any Char.isDigit = false := by
  cases rest with
  | nil => simp [digitRun]
  | cons c rest => cases hc : c.isDigit <;> simp [digitRun, hc]

theorem ends_exponent : Ends endOfExponent? exponentRun := by
  refine ⟨fun {text rest i} h => ?_⟩
  rw [endOfExponent?, test?_beq (by decide) h, Option.bind_eq_bind, Option.bind_some]
  by_cases hletter : rest.head? = some 'E'
  · obtain ⟨more, rfl⟩ := List.head?_eq_some_iff.mp hletter
    have hmore := h.tail (by decide)
    have hdigits := hmore.drop (signRun more)
    rw [byteLength_sign] at hdigits
    have hj : (if more.head?.any (fun c => c == '+' || c == '-') then i + 2 else i + 1) =
        i + 1 + signRun more := by
      rw [signRun_eq]
      split <;> rfl
    rw [if_pos (by simp), test?_eq ((readsAscii_beq (by decide)).or (readsAscii_beq (by decide)))
      hmore, Option.bind_some]
    dsimp only
    rw [hj, test?_eq readsAscii_isDigit hdigits, Option.bind_some, exponentRun]
    cases hdigit : (more.drop (signRun more)).head?.any Char.isDigit with
    | false => rw [if_neg (by decide), if_pos (digitRun_eq_zero_iff.mpr hdigit)]; rfl
    | true =>
      have hsome : digitRun (more.drop (signRun more)) ≠ 0 := fun hzero => by
        rw [digitRun_eq_zero_iff.mp hzero] at hdigit
        contradiction
      rw [if_pos rfl, ends_digits.eq hdigits, if_neg hsome, Nat.add_assoc 1, Nat.add_comm 1,
        List.take_succ_cons, List.take_add, byteLength_cons, byteLength_append, byteLength_sign,
        ← Nat.add_assoc, ← Nat.add_assoc]
      rfl
  · rw [if_neg (by simpa using hletter), exponentRun_eq_zero_of_head hletter]
    rfl

theorem ends_number : Ends endOfNumber? numberRun :=
  ⟨fun h => (Option.bind_assoc ..).symm.trans
    (((ends_digits.seq ends_fraction).seq ends_exponent).eq h)⟩

theorem digitRun_cons (hc : c.isDigit = true) (rest : List Char) :
    digitRun (c :: rest) = digitRun rest + 1 := by
  rw [digitRun, List.takeWhile_cons_of_pos hc, List.length_cons]
  rfl

theorem numberRun_cons (hc : c.isDigit = true) (rest : List Char) :
    numberRun (c :: rest) = numberRun rest + 1 := by
  simp only [numberRun, digitRun_cons hc, List.drop_succ_cons, Nat.add_right_comm _ 1]

theorem numberRun_point (rest : List Char) : numberRun ('.' :: rest) = fractionalRun rest + 1 := by
  have hwhole : digitRun ('.' :: rest) = 0 := rfl
  simp only [numberRun, hwhole, List.drop_zero, fractionRun, fractionalRun, Nat.zero_add,
    Nat.add_comm 1, List.drop_succ_cons, Nat.add_right_comm _ 1]

theorem lineRun_cons (hc : isTerminator c = false) (rest : List Char) :
    lineRun (c :: rest) = lineRun rest + 1 := by
  rw [lineRun, List.takeWhile_cons_of_pos (by simp [hc]), List.length_cons]
  rfl

/-! ### Strings -/

theorem endOfString?_of_byte (h : Leaves text i (c :: rest)) {k : Nat} (hk : k < c.utf8Size) :
    endOfString? (bytes text) (i + k) =
      if c = '"' then some (i + k + 1)
      else if isTerminator c then some (i + k)
      else endOfString? (bytes text) (i + k + 1) := by
  obtain ⟨byte, hmem, hbyte⟩ := h.exists_byte hk
  rw [endOfString?, if_pos (List.getElem?_eq_some_iff.mp hbyte).1, hbyte, Option.bind_eq_bind,
    Option.bind_some, readsAscii_isTerminator.eq_of_mem hmem]
  simp only [ofUInt8_eq_iff hmem (d := '"') (by decide)]

theorem ends_string : Ends endOfString? stringRun := by
  refine ⟨fun {text rest i} h => ?_⟩
  induction rest generalizing i with
  | nil =>
    have := h.byteLength_eq
    rw [endOfString?, if_neg (by simp_all)]
    rfl
  | cons c rest ih =>
    have hfirst := endOfString?_of_byte h c.utf8Size_pos
    rw [Nat.add_zero] at hfirst
    rw [stringRun]
    split
    next hquote =>
      rw [hfirst, if_pos hquote, hquote]
      rfl
    next hquote =>
    split
    next hline =>
      rw [hfirst, if_neg hquote, if_pos hline]
      rfl
    next hline =>
      have hskip : endOfString? (bytes text) i = endOfString? (bytes text) (i + c.utf8Size) :=
        eq_add_of_succ fun k hk => by
          rw [endOfString?_of_byte h hk, if_neg hquote, if_neg hline]
      rw [hskip, ih h.cons, Nat.add_comm 1, List.take_succ_cons, byteLength_cons, Nat.add_assoc]

/-! ### Keywords -/

theorem startsRem?_eq (h : Leaves text i rest) :
    startsRem? (bytes text) i = some (startsRem rest) := by
  rw [startsRem?, if_pos (by simp [h.byteLength_eq]), h.drop_bytes, Option.some_inj,
    Bool.eq_iff_iff, List.isPrefixOf_iff_prefix, bytes_prefix_iff (by decide), startsRem_iff]

/-- No `REM` starts inside of a character. -/
theorem startsRem?_inside (h : Leaves text i (c :: rest)) {k : Nat} (hpos : 0 < k)
    (hk : k < c.utf8Size) : startsRem? (bytes text) (i + k) = some false := by
  rw [startsRem?, if_pos (by rw [length_bytes, h.byteLength_eq, byteLength_cons]; omega),
    Option.some_inj, Bool.eq_false_iff, Ne, List.isPrefixOf_iff_prefix,
    bytes_prefix_drop_iff (by decide) (by decide)]
  obtain ⟨front, rfl, rfl⟩ := h
  rintro ⟨before, after, heq, hoffset⟩
  rw [List.append_assoc] at heq
  have hsize : 'R'.utf8Size = 1 := rfl
  rcases byteLength_apart heq with ⟨rfl, -⟩ | hle | hle <;> omega

theorem nextRem?_beyond {bs : List UInt8} {window : Nat} (h : window ≤ i) :
    nextRem? bs window i = some bs.length := by
  rw [nextRem?, if_neg (Nat.not_lt.mpr h)]

theorem nextRem?_succ {bs : List UInt8} (h : startsRem? bs i = some false) (window : Nat) :
    nextRem? bs window i = nextRem? bs window (i + 1) := by
  by_cases hlt : i < window
  · rw [nextRem?, if_pos hlt, h]
    rfl
  · rw [nextRem?_beyond (by omega), nextRem?_beyond (by omega)]

theorem cutRem_zero (text : List Char) : cutRem text 0 = text := by
  cases text with
  | nil => rfl
  | cons c rest => rw [cutRem]

theorem cutRem_isPrefix (text : List Char) (n : Nat) : cutRem text n <+: text := by
  fun_induction cutRem text n with
  | case1 => exact List.nil_prefix
  | case2 => exact List.prefix_refl _
  | case3 => exact List.nil_prefix
  | case4 c rest n hrem ih => exact List.cons_prefix_cons.mpr ⟨rfl, ih⟩

/-- A window that ends inside of a character might as well end after it. -/
theorem nextRem?_of_window (h : Leaves text i (c :: rest)) {n : Nat}
    (hrest : nextRem? (bytes text)
        (min (byteLength text) (i + c.utf8Size + (n - c.utf8Size))) (i + c.utf8Size) =
      some (i + c.utf8Size + byteLength (cutRem rest (n - c.utf8Size)))) :
    nextRem? (bytes text) (min (byteLength text) (i + n)) (i + c.utf8Size) =
      some (i + c.utf8Size + byteLength (cutRem rest (n - c.utf8Size))) := by
  by_cases hle : c.utf8Size ≤ n
  · rwa [Nat.add_assoc i, Nat.add_sub_cancel' hle] at hrest
  · rw [nextRem?_beyond (by omega), Nat.sub_eq_zero_of_le (by omega), cutRem_zero, length_bytes,
      h.cons.byteLength_eq]

/-- The next `REM` stands where the text is cut. -/
theorem nextRem?_eq (h : Leaves text i rest) (n : Nat) :
    nextRem? (bytes text) (min (byteLength text) (i + n)) i =
      some (i + byteLength (cutRem rest n)) := by
  have hlength := h.byteLength_eq
  fun_induction cutRem rest n generalizing i with
  | case1 n =>
    rw [byteLength_nil] at hlength
    rw [nextRem?_beyond (by omega), length_bytes, hlength]
    rfl
  | case2 c rest => rw [nextRem?_beyond (by omega), length_bytes, hlength]
  | case3 c rest n hrem =>
    have := c.utf8Size_pos
    rw [byteLength_cons] at hlength
    rw [nextRem?, if_pos (by omega), startsRem?_eq h, hrem]
    rfl
  | case4 c rest n hrem ih =>
    have hskip : ∀ window,
        nextRem? (bytes text) window i = nextRem? (bytes text) window (i + c.utf8Size) := by
      refine fun window => eq_add_of_succ fun k hk => nextRem?_succ ?_ window
      rcases Nat.eq_zero_or_pos k with rfl | hpos
      · rw [Nat.add_zero, startsRem?_eq h, Bool.eq_false_iff.mpr hrem]
      · exact startsRem?_inside h hpos hk
    rw [hskip, nextRem?_of_window h (ih h.cons h.cons.byteLength_eq), byteLength_cons,
      Nat.add_assoc]

/-- The keyword at an offset is the one that the scanner finds there. -/
theorem matchKeyword?_eq {table : Keyword.Table} (law : table.Lawful)
    (h : Leaves text i (c :: rest)) :
    matchKeyword? table text i =
      some ((keywordAt? table (c :: rest)).map fun spelling => byteLength spelling.text) := by
  -- the search for a `REM` starts at the second byte, which may be one of the same character
  have hskip : ∀ window,
      nextRem? (bytes text) window (i + 1) = nextRem? (bytes text) window (i + c.utf8Size) := by
    intro window
    have hinside := eq_add_of_succ (g := nextRem? (bytes text) window) (i := i + 1)
      (n := c.utf8Size - 1) fun k hk => nextRem?_succ ?_ window
    · rwa [Nat.add_assoc, Nat.add_sub_cancel' c.utf8Size_pos] at hinside
    · rw [Nat.add_assoc]
      exact startsRem?_inside h (by omega) (by omega)
  have hlimit : nextRem? (bytes text) (min (byteLength text) (i + table.longestSpelling)) (i + 1) =
      some (i + byteLength (searched table (c :: rest))) := by
    rw [hskip, nextRem?_of_window h (nextRem?_eq h.cons _), searched, byteLength_cons,
      Nat.add_assoc]
  obtain ⟨after, hafter⟩ : searched table (c :: rest) <+: c :: rest :=
    List.cons_prefix_cons.mpr ⟨rfl, cutRem_isPrefix ..⟩
  rw [← hafter] at h
  rw [matchKeyword?, hlimit, Option.bind_eq_bind, Option.bind_some, h.slice?_eq,
    keywordAt?_eq_longestMatch? law]
  rfl

end Token.Bytewise

end PocketBasic
