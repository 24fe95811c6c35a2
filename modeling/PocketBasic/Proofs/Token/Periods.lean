import PocketBasic.Proofs.Lexeme.Respelled
import PocketBasic.Proofs.Token.Rules

/-! Spellings that end in a period, in front of any text. The period closes a spelling, so it is
read as it stands whatever follows (`bounded_period`). It does not open what it stands behind
either. Every spelling starts with a capital, and only capitals stand in front of a capital of a
word (`Regular.isUpper_before`), so no word reaches over something else to the spelling
(`apart_of_capital`). Behind a lexeme that is closed, the text in front is read as it is without the
spelling (`Scans.append_capital`). -/

namespace PocketBasic

namespace Lexeme

variable {table : Keyword.Table} {place : Place} {lexeme last : Lexeme}
  {lexemes others front : List Lexeme} {word text rest more : List Char} {c : Char}

/-! ### Over the end of a text -/

/-- A word in which only capitals stand in front of a capital does not reach over another character
to a capital. -/
theorem isPrefix_of_append_capital
    (hword : ∀ {front back : List Char}, front ++ c :: back = word → ∀ d ∈ front, d.isUpper = true)
    (hsign : ∃ d ∈ text, d.isUpper = false) (h : word <+: text ++ c :: more) : word <+: text := by
  by_cases hle : word.length ≤ text.length
  · exact List.prefix_of_prefix_length_le h (List.prefix_append ..) hle
  · have hbeyond : text ++ [c] <+: word := by
      refine List.prefix_of_prefix_length_le ⟨more, by simp⟩ h ?_
      rw [List.length_append, List.length_singleton]
      omega
    obtain ⟨back, hback⟩ := hbeyond
    rw [List.append_assoc, List.singleton_append] at hback
    obtain ⟨d, hd, hsign⟩ := hsign
    rw [hword hback d hd] at hsign
    contradiction

/-- Nothing goes on to a capital over a text that does not consist of capitals. -/
theorem apart_of_capital (law : table.Lawful) (hsign : ∃ d ∈ rest, d.isUpper = false)
    (hc : c.isUpper = true) (more : List Char) : Apart table rest (c :: more) where
  not_digit := isDigit_of_isUpper hc
  not_sign := signRun_cons_of_ne (ne_of_isUpper hc rfl) (ne_of_isUpper hc rfl) more
  stops hword := by
    refine isPrefix_of_append_capital (fun {front back} heq d hd => ?_) ?_
    · rcases hword with ⟨keyword, hk, hmem⟩ | rfl
      · exact (law.regular hk).isUpper_before (heq ▸ hmem) hc d hd
      · have hcapitals : ∀ d ∈ remWord, d.isUpper = true := by decide
        exact hcapitals d (by simp [← heq, hd])
    · obtain ⟨d, hd, hsign⟩ := hsign
      exact ⟨d, List.mem_append_right _ hd, hsign⟩

/-! ### Closed lexemes -/

/-- Whether the lexeme is a line end, a number, a mark, or a string with its closing quote. -/
def isClosed (lexeme : Lexeme) : Bool :=
  match lexeme.kind with
  | .newline | .lineNumber | .number | .symbol _ => true
  | .string => 2 ≤ lexeme.text.length && lexeme.text.getLast? == some '"'
  | .keyword | .identifier | .comment | .blank => false

theorem place_ne_of_isClosed (h : lexeme.isClosed = true) : lexeme.placeAfter ≠ .afterRem := by
  apply placeAfter_ne
  rw [Bool.eq_false_iff]
  intro hrem
  rw [eq_of_isRem hrem] at h
  contradiction

theorem not_isUpper_of_ofChar? {symbol : Symbol} (h : Symbol.ofChar? c = some symbol) :
    c.isUpper = false := by
  unfold Symbol.ofChar? at h
  split at h <;> first | contradiction | rfl

theorem not_isUpper_of_ofPair? {d : Char} {symbol : Symbol}
    (h : Symbol.ofPair? c d = some symbol) : c.isUpper = false ∧ d.isUpper = false := by
  unfold Symbol.ofPair? at h
  split at h <;> first | contradiction | exact ⟨rfl, rfl⟩

/-- A closed lexeme does not consist of capitals. -/
theorem Opens.exists_sign (first : Opens table place lexeme rest) (h : lexeme.isClosed = true) :
    ∃ d ∈ lexeme.text, d.isUpper = false := by
  cases first with
  | crlf | cr => exact ⟨'\r', List.mem_cons_self, rfl⟩
  | lf => exact ⟨'\n', List.mem_cons_self, rfl⟩
  | lineNumber hne hdigits =>
    obtain ⟨d, hd⟩ := List.exists_mem_of_ne_nil _ hne
    exact ⟨d, hd, not_isUpper_of_isDigit (hdigits d hd)⟩
  | number hnumeral hwhole =>
    obtain ⟨d, hd⟩ := List.exists_mem_of_ne_nil _ hwhole
    exact ⟨d, by simp [hd], not_isUpper_of_isDigit (hnumeral.isWhole d hd)⟩
  | fractional => exact ⟨'.', List.mem_cons_self, rfl⟩
  | string => exact ⟨'"', List.mem_cons_self, rfl⟩
  | pair _ hpair => exact ⟨_, List.mem_cons_self, (not_isUpper_of_ofPair? hpair).1⟩
  | mark _ hmark => exact ⟨_, List.mem_cons_self, not_isUpper_of_ofChar? hmark⟩
  | remark | comment | rem | keyword | identifier => contradiction

/-- A string with its closing quote ends there, whatever follows. -/
theorem Quoted.of_isClosed (h : Quoted text rest)
    (closed : isClosed ⟨.string, '"' :: text⟩ = true) (rest' : List Char) : Quoted text rest' := by
  cases h with
  | closed hline hquote => exact .closed hline hquote
  | opened hline hquote =>
    -- the only quote is the opening one
    cases text with
    | nil => contradiction
    | cons d text =>
      simp only [isClosed, Bool.and_eq_true, beq_iff_eq, List.getLast?_cons_cons] at closed
      exact absurd (List.mem_of_getLast? closed.2) hquote

/-- A closed lexeme at the end of a text is read in front of a capital too, if the capital does not
start an exponent. -/
theorem Opens.closed (first : Opens table place lexeme []) (h : lexeme.isClosed = true)
    (hc : c.isUpper = true) (hexponent : exponentRun (c :: more) = 0) :
    Opens table place lexeme (c :: more) := by
  have hne {d : Char} (hd : d.isUpper = false) : (c :: more).head? ≠ some d := by
    simpa using ne_of_isUpper hc hd
  have numeral {whole fraction exponent : List Char} (h : Numeral whole fraction exponent []) :
      Numeral whole fraction exponent (c :: more) :=
    h.of_rest (isDigit_of_isUpper hc) (fun _ => hne rfl) fun _ => hexponent
  cases first with
  | crlf => exact .crlf
  | cr => exact .cr (hne rfl)
  | lf => exact .lf
  | lineNumber hne hdigits => exact .lineNumber hne hdigits (isDigit_of_isUpper hc)
  | number h hwhole => exact .number (numeral h) hwhole
  | fractional hplace h hdigits => exact .fractional hplace (numeral h) hdigits
  | string hplace hquoted => exact .string hplace (hquoted.of_isClosed h _)
  | pair hplace hpair => exact .pair hplace hpair
  | mark hplace hmark =>
    refine .mark hplace hmark (Option.eq_none_iff_forall_ne_some.mpr fun symbol hpair => ?_)
    have hsign : c.isUpper = false := (not_isUpper_of_ofPair? hpair).2
    rw [hc] at hsign
    contradiction
  | remark | comment | rem | keyword | identifier => contradiction

/-- A text that ends in a closed lexeme is read as before where something that starts with a capital
is added to it. -/
theorem Scans.append_capital (law : table.Lawful) (scans : Scans table place (front ++ [last]))
    (h : last.isClosed = true) (hwritten : written others = c :: more) (hc : c.isUpper = true)
    (hexponent : exponentRun (c :: more) = 0) (hothers : Scans table last.placeAfter others) :
    Scans table place (front ++ last :: others) := by
  induction front generalizing place with
  | nil =>
    cases scans with
    | cons first _ => exact .cons (hwritten ▸ first.closed h hc hexponent) hothers
  | cons lexeme front ih =>
    rw [List.cons_append] at scans ⊢
    cases scans with
    | cons first rest =>
      obtain ⟨_, opens, -⟩ := rest.exists_cons
      obtain ⟨d, hd, hsign⟩ := opens.exists_sign h
      have hmem : d ∈ written (front ++ [last]) := by simp [hd]
      refine .cons ?_ (ih rest)
      have opens := first.append law (List.ne_nil_of_mem hmem)
        (apart_of_capital law ⟨d, hmem, hsign⟩ hc more)
      rwa [← hwritten, ← written_append, List.append_assoc] at opens

/-! ### Spellings that end in a period -/

/-- A spelling that ends in a period is read after what is closed, and what follows it is read as
the rest of the line. -/
theorem scan_append_spelling (law : table.Lawful) (hspells : table.Spells word)
    (hperiod : word.getLast? = some '.') (text : List Char)
    (h : ∀ last ∈ (scan table text).getLast?, last.isClosed = true) (rest : List Char) :
    scan table (text ++ (word ++ rest)) =
      scan table text ++ ⟨.keyword, word⟩ :: scanFrom table .inLine rest := by
  obtain ⟨scans, hwritten⟩ := (scanFrom_eq_iff law).mp (Eq.refl (scan table text))
  obtain ⟨others, hothers⟩ := (scanFrom_eq_iff law).mp (Eq.refl (scanFrom table .inLine rest))
  obtain ⟨c, letters, hcons, hc, -⟩ := hspells.exists_cons law
  have hexponent : exponentRun (word ++ rest) = 0 := by
    obtain ⟨keyword, hk, hmem⟩ := hspells
    exact exponentRun_spelling law hk hmem rest
  have hrem : isRem ⟨.keyword, word⟩ = false := by
    rw [Bool.eq_false_iff]
    intro hrem
    rw [show word = remWord from (isRem_iff.mp hrem).2] at hperiod
    contradiction
  have keyword {place : Place} (hplace : place ≠ .afterRem) :
      Scans table place (⟨.keyword, word⟩ :: scanFrom table .inLine rest) := by
    refine .cons ?_ (by rwa [placeAfter_eq_inLine (by simp) hrem])
    rw [hothers]
    exact (bounded_period law hspells hperiod rest).opens hplace hspells (by simp [hcons])
  refine (scanFrom_eq_iff law).mpr ⟨?_, by rw [written_append, hwritten, written_cons, hothers]⟩
  rcases List.eq_nil_or_concat (scan table text) with hnil | ⟨front, last, hlast⟩
  · rw [hnil]
    exact keyword (by decide)
  · rw [List.concat_eq_append] at hlast
    have hclosed := h last (by simp [hlast])
    rw [hlast] at scans ⊢
    rw [List.append_assoc, List.singleton_append]
    rw [hcons, List.cons_append] at hexponent
    refine scans.append_capital law hclosed ?_ hc hexponent (keyword (place_ne_of_isClosed hclosed))
    rw [written_cons, hothers, hcons, List.cons_append]

end Lexeme

namespace Token

open Lexeme

/-- Spellings that end in a period are read as such wherever they start a text, whatever follows
them: a `REM`, a digit or a longer name. They are read as such after a line end, a number, a mark or
a closed string too, which are read as they are without them. -/
theorem scan_append_period (tiers : List Tier) {word : List Char}
    (hspells : (Keyword.Table.ofTiers tiers).Spells word) (hperiod : word.getLast? = some '.')
    (rest : List Char) :
    let table := Keyword.Table.ofTiers tiers
    (scan table (word ++ rest)).head? = some ⟨⟨.keyword, word⟩, 0, Text.byteLength word⟩ ∧
      ∀ text last, (scan table text).getLast? = some last → last.isClosed = true →
        scan table text ++ [⟨⟨.keyword, word⟩, Text.byteLength text,
          Text.byteLength text + Text.byteLength word⟩] <+: scan table (text ++ word ++ rest) := by
  intro table
  have law : table.Lawful := Keyword.Table.lawful_ofTiers tiers
  refine ⟨?_, fun text last hlast hclosed => ?_⟩
  · have hscan := scan_append_spelling law hspells hperiod [] (by simp [Lexeme.scan]) rest
    rw [List.nil_append] at hscan
    rw [scan, hscan, Lexeme.scan, scanFrom_nil, List.nil_append, contiguous, List.head?_cons,
      Nat.zero_add]
  · have hlexemes : (Lexeme.scan table text).getLast? = some last.toLexeme := by
      rw [← map_toLexeme_contiguous 0 (Lexeme.scan table text), List.getLast?_map, ← scan, hlast]
      rfl
    have hscan := scan_append_spelling law hspells hperiod text
      (by simpa [hlexemes] using hclosed) rest
    have hwritten : written (Lexeme.scan table text) = text :=
      flatMap_text_scanFrom table .lineStart text
    rw [List.append_assoc, scan, scan, hscan, contiguous_append, hwritten, Nat.zero_add, contiguous,
      List.prefix_append_right_inj]
    exact ⟨_, rfl⟩

/-- `=1E.5` is read with the keyword `END` in it: its letter does not start an exponent, and its
period does not start a number. -/
theorem scan_append_period_end :
    let table := Keyword.Table.ofTiers [.core]
    let word := ['E', '.']
    let text := ['=', '1']
    table.Spells word ∧ word.getLast? = some '.' ∧
      (scan table text).getLast? = some ⟨⟨.number, ['1']⟩, 1, 2⟩ ∧
      (scan table (word ++ ['5'])).head? = some ⟨⟨.keyword, word⟩, 0, 2⟩ ∧
      scan table text ++ [⟨⟨.keyword, word⟩, 2, 4⟩] <+: scan table (text ++ word ++ ['5']) := by
  intro table word text
  have hspells : table.Spells word := by
    rw [Keyword.Table.spells_iff]
    decide +kernel
  have hlast : (scan table text).getLast? = some ⟨⟨.number, ['1']⟩, 1, 2⟩ := by decide +kernel
  obtain ⟨hfirst, hafter⟩ := scan_append_period [.core] hspells rfl ['5']
  exact ⟨hspells, rfl, hlast, hfirst, hafter text _ hlast rfl⟩

end Token
end PocketBasic
