import PocketBasic.Proofs.Text.Ascii
import PocketBasic.Proofs.Token.Literals

/-! Remarks. Wherever the letters of a `REM` stand in a text, a scan reads them as the word that
opens a comment, unless a string or a comment has been opened before them. No lexeme of another kind
reaches into the word (`Opens.remWord_cases`), however the keywords of the table end, and what is
left of the line after it is one comment (`scanFrom_afterRem`). -/

namespace PocketBasic

namespace Lexeme

variable {table : Keyword.Table} {place : Place} {lexeme : Lexeme}
  {word own inside rest line after : List Char}

/-- A string or a comment ends with a quote, or at the end of the line. -/
theorem Opens.verbatim_cases (first : Opens table place lexeme rest)
    (hverbatim : lexeme.isVerbatim = true) :
    endsLine rest = true ∨ ∃ front, lexeme.text = front ++ ['"'] := by
  cases first with
  | remark _ _ hend => exact .inl hend
  | comment _ _ hend => exact .inl hend
  | string _ hquoted =>
    cases hquoted with
    | @closed text => exact .inr ⟨'"' :: text, rfl⟩
    | opened _ _ hend => exact .inl hend
  | crlf | cr | lf | lineNumber | number | fractional | rem | keyword | pair | mark
    | identifier => contradiction

/-- A `REM` that starts inside of a string or a comment ends there too. -/
theorem Opens.remWord_inside (first : Opens table place lexeme rest)
    (hverbatim : lexeme.isVerbatim = true) (htext : lexeme.text = own ++ inside)
    (hne : inside ≠ []) (hrem : remWord <+: inside ++ rest) : remWord <+: inside := by
  rcases first.verbatim_cases hverbatim with hend | ⟨front, hquote⟩
  · exact Text.isPrefix_of_append (not_mem_of_endsLine hend (by decide)) hrem
  · obtain ⟨shorter, c, rfl⟩ := (List.eq_nil_or_concat inside).resolve_left hne
    rw [List.concat_eq_append] at htext hrem ⊢
    rw [hquote, ← List.append_assoc] at htext
    obtain ⟨-, hc⟩ := List.append_inj' htext rfl
    rw [← hc, List.append_assoc] at hrem
    have hshorter : remWord <+: shorter := by
      refine Text.isPrefix_of_append (fun d hd => ?_) hrem
      obtain rfl := Option.some.inj hd
      decide
    exact hshorter.trans (List.prefix_append ..)

/-- A `REM` that starts inside of a lexeme is the lexeme, unless the lexeme is a string or a
comment. -/
theorem Opens.remWord_cases (law : table.Lawful) (first : Opens table place lexeme rest)
    (htext : lexeme.text = own ++ inside) (hne : inside ≠ []) (hrem : remWord <+: inside ++ rest) :
    lexeme.isVerbatim = true ∧ remWord <+: inside ∨ own = [] ∧ lexeme = ⟨.keyword, remWord⟩ := by
  obtain ⟨c, others, rfl⟩ := List.exists_cons_of_ne_nil hne
  obtain rfl : 'R' = c := (List.cons_prefix_cons.mp hrem).1
  by_cases hverbatim : lexeme.isVerbatim = true
  · exact .inl ⟨hverbatim, first.remWord_inside hverbatim htext hne hrem⟩
  rw [Bool.not_eq_true] at hverbatim
  have hline : lexeme.kind ≠ .newline := fun hline => by
    have hterm := (first.newline_cases hline).2 'R' (by simp [htext])
    contradiction
  by_cases hisRem : lexeme.isRem = true
  · obtain rfl := eq_of_isRem hisRem
    refine .inr ⟨?_, rfl⟩
    -- the word has no second `R` for a later start
    cases own with
    | nil => rfl
    | cons d own =>
      obtain ⟨-, htail⟩ := List.cons.inj htext
      have hmem : 'R' ∈ ['E', 'M'] := by simp [htail]
      contradiction
  · rw [Bool.not_eq_true] at hisRem
    obtain ⟨-, inCode⟩ := first.inCode law hverbatim hline hisRem
    exact absurd (List.cons_prefix_cons.mp hrem).2 (inCode.not_rem htext)

/-! ### After the word -/

/-- The comment that a `REM` opens with `line` after it. -/
def remark (line : List Char) : List Lexeme :=
  if line = [] then [] else [⟨.comment, line⟩]

@[simp] theorem written_remark (line : List Char) : written (remark line) = line := by
  rw [remark]
  split
  next hline => exact hline.symm
  next => exact List.append_nil line

/-- Where no comment is open, a `REM` opens one. -/
theorem scanFrom_remWord (law : table.Lawful) (hplace : place ≠ .afterRem) (rest : List Char) :
    scanFrom table place (remWord ++ rest) =
      ⟨.keyword, remWord⟩ :: scanFrom table .afterRem rest := by
  obtain ⟨others, hwritten⟩ :=
    (scanFrom_eq_iff law).mp (Eq.refl (scanFrom table .afterRem rest))
  exact (scanFrom_eq_iff law).mpr ⟨.cons (.rem hplace) others, by rw [written_cons, hwritten]⟩

/-- At the end of a line it does not matter where the reader stands. -/
theorem scanFrom_of_endsLine (hend : endsLine rest = true) (place place' : Place) :
    scanFrom table place rest = scanFrom table place' rest := by
  cases rest with
  | nil => rw [scanFrom_nil, scanFrom_nil]
  | cons c rest =>
    have hc : isTerminator c = true := hend
    have hhead (place : Place) : head table place c rest =
        (.newline, if c == '\r' && rest.head? == some '\n' then 1 else 0) := by
      rw [head, if_pos hc]
    rw [scanFrom_cons, scanFrom_cons, hhead, hhead]

theorem kind_of_endsLine (hend : endsLine rest = true) :
    ∀ next ∈ (scanFrom table place rest).head?, next.kind = .newline := by
  cases rest with
  | nil => simp
  | cons c rest =>
    have hc : isTerminator c = true := hend
    rw [scanFrom_cons]
    rintro next ⟨⟩
    rw [head, if_pos hc]

/-- After a `REM`, what is left of the line is read as one comment. -/
theorem scanFrom_afterRem (hline : Inline line) (hend : endsLine after = true) :
    scanFrom table .afterRem (line ++ after) = remark line ++ scanFrom table .inLine after := by
  cases line with
  | nil => exact scanFrom_of_endsLine hend _ _
  | cons c line =>
    have hc : isTerminator c = false := hline c List.mem_cons_self
    have htail : Inline line := fun d hd => hline d (List.mem_cons_of_mem _ hd)
    have hhead : head table .afterRem c (line ++ after) = (.comment, line.length) := by
      rw [head, if_neg (by simp [hc]), if_pos rfl, lineRun_append htail hend]
    rw [List.cons_append, scanFrom_cons, hhead, List.take_left, List.drop_left]
    rfl

end Lexeme

namespace Token

open Lexeme

variable {table : Keyword.Table} {text : List Char} {offset : Nat}

/-- The token takes up all bytes of the word that opens a comment. -/
def CoversRem (token : Token) (offset : Nat) : Prop :=
  ∀ i < remWord.length, token.Covers (offset + i)

instance (token : Token) (offset : Nat) : Decidable (token.CoversRem offset) :=
  inferInstanceAs (Decidable (∀ i < _, _))

/-- The word that opens a comment, as a token. -/
def remAt (offset : Nat) : Token :=
  ⟨⟨.keyword, remWord⟩, offset, offset + 3⟩

theorem coversRem_remAt (offset : Nat) : (remAt offset).CoversRem offset :=
  fun _ hi => ⟨Nat.le_add_right .., Nat.add_lt_add_left hi _⟩

/-- Among the tokens of the text, the word that opens a comment stands at the offset, and what is
left of its line is one comment. -/
def OpensRemark (tokens : List Token) (text : List Char) (offset : Nat) : Prop :=
  ∃ before line after front back, text = before ++ remWord ++ line ++ after ∧
    Text.byteLength before = offset ∧ Inline line ∧ endsLine after = true ∧
    tokens = front ++ remAt offset :: contiguous (offset + 3) (remark line) ++ back ∧
    ∀ next ∈ back.head?, next.kind = .newline

theorem byteLength_remWord : Text.byteLength remWord = 3 := rfl

theorem toLexeme_of_head?_contiguous {start : Nat} {lexemes : List Lexeme} {token : Token}
    (h : token ∈ (contiguous start lexemes).head?) : token.toLexeme ∈ lexemes.head? := by
  cases lexemes with
  | nil => contradiction
  | cons first lexemes =>
    obtain rfl := Option.some.inj h
    rfl

/-- A `REM` among the lexemes of a scan opens a remark. -/
theorem opensRemark_contiguous (law : table.Lawful) {place : Place} {front back : List Lexeme}
    (scans : Scans table place (front ++ ⟨.keyword, remWord⟩ :: back)) :
    OpensRemark (contiguous 0 (front ++ ⟨.keyword, remWord⟩ :: back))
      (written (front ++ ⟨.keyword, remWord⟩ :: back)) (Text.byteLength (written front)) := by
  obtain ⟨_, -, others⟩ := scans.exists_cons
  obtain ⟨line, after, hwritten, -, hline, hend⟩ := exists_lineRun (written back)
  have hback : back = remark line ++ scanFrom table .inLine after := by
    rw [← scanFrom_afterRem hline hend, ← hwritten]
    exact ((scanFrom_eq_iff law).mpr ⟨others, rfl⟩).symm
  refine ⟨written front, line, after, contiguous 0 front,
    contiguous (Text.byteLength (written front) + 3 + Text.byteLength line)
      (scanFrom table .inLine after), ?_, rfl, hline, hend, ?_, fun next hnext => ?_⟩
  · rw [written_append, written_cons, hwritten]
    simp only [List.append_assoc]
  · rw [hback, contiguous_append, contiguous, contiguous_append, Nat.zero_add, written_remark,
      byteLength_remWord, remAt, ← List.cons_append, ← List.append_assoc]
  · exact kind_of_endsLine hend _ (toLexeme_of_head?_contiguous hnext)

/-- The token of a scan that takes up the word: a string or a comment, or the word itself. -/
theorem exists_token_of_remWord (law : table.Lawful) {before after : List Char}
    (htext : text = before ++ remWord ++ after) :
    ∃ token ∈ scan table text, token.CoversRem (Text.byteLength before) ∧
      (token.isVerbatim = true ∨ token = remAt (Text.byteLength before) ∧
        OpensRemark (scan table text) text (Text.byteLength before)) := by
  obtain ⟨scans, hwritten⟩ := (scanFrom_eq_iff law).mp (Eq.refl (Lexeme.scan table text))
  -- the lexeme that holds the first letter
  have hcut : written (Lexeme.scan table text) = before ++ 'R' :: (['E', 'M'] ++ after) := by
    rw [hwritten, htext, List.append_assoc]
    rfl
  obtain ⟨front, lexeme, back, own, others, hlexemes, rfl, hown, hothers⟩ := exists_lexeme_at hcut
  have hmem := mem_contiguous front lexeme back 0
  rw [Nat.zero_add, ← hlexemes] at hmem
  rw [hlexemes] at scans
  obtain ⟨place, first, -⟩ := scans.exists_cons
  have hrem : remWord <+: 'R' :: others ++ written back := by
    rw [List.cons_append, ← hothers, ← List.cons_append]
    exact List.prefix_append remWord after
  rcases first.remWord_cases law hown (List.cons_ne_nil _ _) hrem with
    ⟨hverbatim, more, hmore⟩ | ⟨rfl, rfl⟩
  · refine ⟨_, hmem, fun i hi => ?_, .inl hverbatim⟩
    have hlength : i < Text.byteLength ('R' :: others) := by
      rw [← hmore, Text.byteLength_append]
      exact Nat.lt_add_right _ hi
    rw [Covers, Text.byteLength_append, hown, Text.byteLength_append]
    dsimp only
    omega
  · have opens := opensRemark_contiguous law scans
    rw [← hlexemes, hwritten] at opens
    rw [List.append_nil]
    exact ⟨_, hmem, coversRem_remAt _, .inr ⟨rfl, opens⟩⟩

/-- A `REM` always wins. Where its letters stand in a text, folded or not, they are part of a string
or a comment that was opened before them, or they are the keyword that opens a remark. No other
token takes up any of their bytes. -/
theorem rem_wins (tiers : List Tier) (text : List Char) (offset : Nat)
    (h : Text.bytes remWord <+: (Text.bytes text).drop offset) :
    let tokens := scan (Keyword.Table.ofTiers tiers) text
    ((∃ token ∈ tokens, token.isVerbatim = true ∧ token.CoversRem offset) ∨
        OpensRemark tokens text offset) ∧
      ∀ token ∈ tokens, ∀ i < remWord.length, token.Covers (offset + i) →
        token.isVerbatim = true ∨ token = remAt offset := by
  intro tokens
  have law : (Keyword.Table.ofTiers tiers).Lawful := Keyword.Table.lawful_ofTiers tiers
  obtain ⟨before, after, htext, rfl⟩ := (Text.bytes_prefix_drop_iff (by decide) (by decide)).mp h
  obtain ⟨token, hmem, hcovers, hcases⟩ := exists_token_of_remWord law htext
  refine ⟨hcases.imp (fun hverbatim => ⟨token, hmem, hverbatim, hcovers⟩) (·.2), ?_⟩
  intro other hother i hi hcovers'
  have htiles : Tiles 0 tokens _ :=
    tiles_contiguous (fun _ hmem => text_ne_nil_of_mem_scanFrom hmem) 0
  rw [htiles.eq_of_covers hother hmem hcovers' (hcovers i hi)]
  exact hcases.imp_right (·.1)

/-- The `FOR` of `FOREM` is cut short by the word that starts with its last letter. -/
theorem rem_wins_over_for :
    let text := ['F', 'O', 'R', 'E', 'M', ' ', 'X']
    let tokens := scan (Keyword.Table.ofTiers [.core]) text
    Text.bytes remWord <+: (Text.bytes text).drop 2 ∧ OpensRemark tokens text 2 ∧
      ∀ token ∈ tokens, ∀ i < remWord.length, token.Covers (2 + i) → token = remAt 2 := by
  intro text tokens
  have h : Text.bytes remWord <+: (Text.bytes text).drop 2 := by decide +kernel
  have hcode : ∀ token ∈ tokens, token.isVerbatim = true →
      ∀ i < remWord.length, ¬ token.Covers (2 + i) := by decide +kernel
  obtain ⟨hcases, hothers⟩ := rem_wins [.core] text 2 h
  refine ⟨h, hcases.resolve_left ?_, fun token hmem i hi hcovers =>
    (hothers token hmem i hi hcovers).resolve_left fun hverbatim =>
      hcode token hmem hverbatim i hi hcovers⟩
  rintro ⟨token, hmem, hverbatim, hcovers⟩
  exact hcode token hmem hverbatim 0 (by decide) (hcovers 0 (by decide))

end Token

end PocketBasic
