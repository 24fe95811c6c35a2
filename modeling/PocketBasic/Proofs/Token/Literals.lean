import PocketBasic.Proofs.Folding.Marks
import PocketBasic.Proofs.Lexeme.Line
import PocketBasic.Proofs.Token.Spans

/-! Strings and comments. A fold decides character by character what belongs to one of them, and a
scan of the folded text decides it lexeme by lexeme. They agree (`literal_iff_covered`): at every
character the fold stands in the mode that the lexeme around it calls for (`Scans.through_front`),
and it takes a `REM` for the start of a comment exactly where the scan does. -/

namespace PocketBasic

namespace Folding

/-- Whether a character that is read in the mode is part of a string or a comment, the marks that
open it included. A line end never is. -/
def Mode.isLiteral (mode : Mode) (c : Char) : Bool :=
  match mode with
  | quoted | comment => !isTerminator c
  | code => c == '"' || c == '\''
  | rem => false

/-- Whether the fold took the character for a part of a string or a comment. -/
def Mark.isLiteral (mark : Mark) : Bool :=
  mark.mode.isLiteral mark.char

/-- Whether the fold found a `REM` at the first of the marks, and goes on inside of it. -/
def opensRem : List Mark → Bool
  | first :: second :: _ => first.mode == .code && second.mode == .rem
  | _ => false

variable {c : Char} {rest : List Char} {mode : Mode}

theorem Mode.next_code_eq_rem :
    Mode.code.next c rest = .rem ↔ c = 'R' ∧ completesRem rest = true := by
  rw [Mode.next]
  by_cases hc : isTerminator c = true
  · rw [if_pos hc]
    refine iff_of_false (by decide) ?_
    rintro ⟨rfl, -⟩
    contradiction
  rw [if_neg hc]
  by_cases hquote : c = '"'
  · simp [hquote]
  by_cases hmark : c = '\''
  · simp [hmark]
  rw [if_neg hquote, if_neg hmark]
  split
  next h => exact iff_of_true rfl h
  next h => exact iff_of_false (by decide) h

/-- A fold finds a `REM` where it stands in the code and goes on inside of the word. -/
theorem opensRem_iff {offset : Nat} {text : List Char} {mark : Mark} {before after : List Mark}
    (h : foldFrom mode offset text = before ++ mark :: after) :
    opensRem (mark :: after) = true ↔
      mark.mode = .code ∧ Mode.code.next mark.char (Folding.text after) = .rem := by
  cases after with
  | nil =>
    refine iff_of_false (by simp [opensRem]) ?_
    rintro ⟨-, hnext⟩
    exact absurd (Mode.next_code_eq_rem.mp hnext).2 (by decide)
  | cons next after =>
    have hmode := mode_eq_through h
    have hcut : foldFrom mode offset text = (before ++ [mark]) ++ next :: after := by
      rw [h, List.append_cons]
    have hnext := mode_eq_through hcut
    rw [Folding.text, List.map_append, Mode.through_append] at hnext
    have hnext : next.mode = mark.mode.next mark.char (Folding.text (next :: after)) := by
      rw [hnext, hmode]
      rfl
    rw [opensRem, Bool.and_eq_true, beq_iff_eq, beq_iff_eq, hnext]
    refine and_congr_right fun hcode => ?_
    rw [hcode]

/-- Where a `REM` starts, nothing is a part of a string or a comment. -/
theorem Mode.not_isLiteral_of_rem (h : mode = .code ∧ Mode.code.next c rest = .rem) :
    mode.isLiteral c = false := by
  obtain ⟨rfl, hnext⟩ := h
  obtain ⟨rfl, -⟩ := next_code_eq_rem.mp hnext
  rfl

theorem Mode.isLiteral_of_terminator (h : isTerminator c = true) (mode : Mode) :
    mode.isLiteral c = false := by
  rcases Lexeme.isTerminator_iff.mp h with rfl | rfl <;> cases mode <;> rfl

end Folding

namespace Lexeme

open Folding

variable {table : Keyword.Table} {place : Place} {mode : Mode} {lexeme : Lexeme}
  {lexemes : List Lexeme} {text front back rest : List Char} {c : Char}

/-- In front of each character of a string but the first one, the string is open. -/
theorem Quoted.through_front (h : Quoted text rest) (heq : text = front ++ c :: back)
    (rest' : List Char) :
    Mode.quoted.through front rest' = .quoted ∧ isTerminator c = false := by
  have opened {text back : List Char} (hline : Inline text) (hq : '"' ∉ text)
      (heq : text = front ++ c :: back) :
      Mode.quoted.through front rest' = .quoted ∧ isTerminator c = false := by
    subst heq
    refine ⟨through_quoted (fun d hd => hline d (List.mem_append_left _ hd)) ?_ rest',
      hline c (by simp)⟩
    exact fun hmem => hq (List.mem_append_left _ hmem)
  cases h with
  | @closed text _ hline hq =>
    rcases List.eq_nil_or_concat back with rfl | ⟨others, d, rfl⟩
    · obtain ⟨rfl, hc⟩ := List.append_inj' heq rfl
      obtain rfl := (List.cons.inj hc).1
      exact ⟨through_quoted hline hq rest', rfl⟩
    · rw [List.concat_eq_append, ← List.cons_append, ← List.append_assoc] at heq
      exact opened hline hq (List.append_inj_left' heq rfl)
  | opened hline hq => exact opened hline hq heq

/-- Inside of a string or a comment, a fold takes every character for a part of it. -/
theorem Opens.isLiteral_of_verbatim (first : Opens table place lexeme rest)
    (hverbatim : lexeme.isVerbatim = true) (heq : lexeme.text = front ++ c :: back)
    (rest' : List Char) : (place.mode.through front rest').isLiteral c = true := by
  have comment {text front : List Char} (hline : Inline text) (heq : text = front ++ c :: back) :
      (Mode.comment.through front rest').isLiteral c = true := by
    subst heq
    rw [(kept_comment (fun d hd => hline d (List.mem_append_left _ hd)) rest').2, Mode.isLiteral,
      hline c (by simp)]
    rfl
  cases first with
  | remark _ hline => exact comment hline heq
  | @string _ text _ hplace h =>
    rw [Place.mode_of_ne hplace]
    cases front with
    | nil =>
      obtain ⟨rfl, -⟩ := List.cons.inj heq
      rfl
    | cons d front =>
      obtain ⟨rfl, htext⟩ := List.cons.inj heq
      have next : Mode.code.next '"' (front ++ rest') = .quoted := rfl
      obtain ⟨hthrough, hc⟩ := h.through_front htext rest'
      rw [Mode.through_cons, next, hthrough, Mode.isLiteral, hc]
      rfl
  | @comment _ text _ hplace hline =>
    rw [Place.mode_of_ne hplace]
    cases front with
    | nil =>
      obtain ⟨rfl, -⟩ := List.cons.inj heq
      rfl
    | cons d front =>
      obtain ⟨rfl, htext⟩ := List.cons.inj heq
      have next : Mode.code.next '\'' (front ++ rest') = .comment := rfl
      rw [Mode.through_cons, next]
      exact comment hline htext
  | crlf | cr | lf | lineNumber | number | fractional | rem | keyword | pair | mark
    | identifier => contradiction

/-- In front of each character of a lexeme of the code, a fold stands in the code. -/
theorem Scans.through_code_front (law : table.Lawful) (scans : Scans table place (lexeme :: lexemes))
    (folded : Folded (lexeme :: lexemes)) (hcode : lexeme.isVerbatim = false)
    (hline : lexeme.kind ≠ .newline) (hrem : lexeme.isRem = false)
    (heq : lexeme.text = front ++ c :: back) :
    Mode.code.through front (c :: back ++ written lexemes) = .code ∧ isPlain c = true ∧
      (c = 'R' → completesRem (back ++ written lexemes) = false) := by
  have hscans := scans
  cases scans with
  | cons first others =>
    obtain ⟨-, inCode⟩ := first.inCode law hcode hline hrem
    have not_rem (before after : List Char) (hcut : lexeme.text = before ++ 'R' :: after) :
        completesRem (after ++ written lexemes) = false := by
      rw [Bool.eq_false_iff]
      exact fun h => inCode.not_rem hcut
        (hscans.prefix_of_completesRem law folded hcode hrem hcut rfl h)
    refine ⟨through_code (fun d hd => inCode.isPlain d (by simp [heq, hd])) ?_,
      inCode.isPlain c (by simp [heq]), fun hc => not_rem front back (hc ▸ heq)⟩
    intro before after hfront _
    rw [List.cons_append, ← List.cons_append, ← List.append_assoc]
    exact not_rem before _ (by rw [heq, hfront]; simp)

/-- A fold is inside of a `REM` after its first letter. -/
theorem through_remWord_front (heq : remWord = front ++ c :: back) (rest : List Char) :
    (front = [] ∧ c = 'R' ∧ back = ['E', 'M']) ∨
      (front ≠ [] ∧ Mode.code.through front (c :: back ++ rest) = .rem) := by
  rw [remWord] at heq
  rcases front with _ | ⟨d, _ | ⟨e, _ | ⟨f, front⟩⟩⟩
  · obtain ⟨rfl, rfl⟩ := List.cons.inj heq
    exact .inl ⟨rfl, rfl, rfl⟩
  · simp only [List.cons_append, List.nil_append, List.cons.injEq] at heq
    obtain ⟨rfl, rfl, rfl⟩ := heq
    exact .inr ⟨by simp, next_remWord rest⟩
  · simp only [List.cons_append, List.nil_append, List.cons.injEq] at heq
    obtain ⟨rfl, rfl, rfl, rfl⟩ := heq
    have next : Mode.code.next 'R' (['E'] ++ (['M'] ++ rest)) = .rem := next_remWord rest
    refine .inr ⟨by simp, ?_⟩
    rw [Mode.through_cons, next]
    simp [Mode.through_cons, Mode.next, isTerminator]
  · simp at heq

/-- The fold stands at each character of a lexeme as the lexeme calls for: it takes the character
for a part of a string or a comment if the lexeme is one, and it takes a `REM` to start there if the
lexeme is one and starts there. -/
theorem Scans.through_front (law : table.Lawful) (scans : Scans table place (lexeme :: lexemes))
    (folded : Folded (lexeme :: lexemes)) (agrees : place.Agrees mode (written (lexeme :: lexemes)))
    (heq : lexeme.text = front ++ c :: back) :
    let here := mode.through front (c :: back ++ written lexemes)
    here.isLiteral c = lexeme.isVerbatim ∧
      (here = .code ∧ Mode.code.next c (back ++ written lexemes) = .rem ↔
        lexeme.isRem = true ∧ front = []) := by
  intro here
  have hscans := scans
  cases scans with
  | cons first others =>
  by_cases hline : lexeme.kind = .newline
  · have hc : isTerminator c = true := (first.newline_cases hline).2 c (by simp [heq])
    have hverbatim : lexeme.isVerbatim = false := by simp [isVerbatim, hline]
    have hrem : lexeme.isRem = false := by simp [isRem, hline]
    rw [Mode.isLiteral_of_terminator hc, hverbatim, hrem, Mode.next_of_terminator hc]
    exact ⟨rfl, by simp⟩
  have hmode : mode = place.mode := agrees.mode_eq (first.endsLine_eq law hline)
  by_cases hverbatim : lexeme.isVerbatim = true
  · have hliteral : here.isLiteral c = true := by
      simp only [here, hmode]
      exact first.isLiteral_of_verbatim hverbatim heq _
    refine ⟨hliteral.trans hverbatim.symm, iff_of_false (fun h => ?_) ?_⟩
    · rw [Mode.not_isLiteral_of_rem h] at hliteral
      contradiction
    · exact fun h => kind_ne_of_isVerbatim hverbatim (isRem_iff.mp h.1).1
  rw [Bool.not_eq_true] at hverbatim
  have hplace : place ≠ .afterRem := first.place_ne hline fun hkind => by
    simp [isVerbatim, hkind] at hverbatim
  rw [Place.mode_of_ne hplace] at hmode
  by_cases hrem : lexeme.isRem = true
  · rw [hverbatim, hrem]
    simp only [here, hmode]
    rcases through_remWord_front ((isRem_iff.mp hrem).2.symm.trans heq) (written lexemes) with
      ⟨rfl, rfl, rfl⟩ | ⟨hfront, hinside⟩
    · exact ⟨rfl, iff_of_true ⟨rfl, next_remWord _⟩ ⟨trivial, rfl⟩⟩
    · rw [hinside]
      exact ⟨rfl, iff_of_false (by simp) fun h => hfront h.2⟩
  · rw [Bool.not_eq_true] at hrem
    obtain ⟨hhere, hplain, hnot⟩ :=
      hscans.through_code_front law folded hverbatim hline hrem heq
    rw [hverbatim, hrem]
    simp only [here, hmode, hhere]
    refine ⟨?_, iff_of_false ?_ (by simp)⟩
    · simp only [isPlain, Bool.and_eq_true, bne_iff_ne] at hplain
      simp [Mode.isLiteral, hplain]
    · rintro ⟨-, hnext⟩
      obtain ⟨hc, hcompletes⟩ := Mode.next_code_eq_rem.mp hnext
      rw [hnot hc] at hcompletes
      contradiction

/-! ### Characters of a scan -/

/-- Every character of a text is a character of one of its lexemes. -/
theorem exists_lexeme_at (h : written lexemes = front ++ c :: back) :
    ∃ before lexeme after own others, lexemes = before ++ lexeme :: after ∧
      front = written before ++ own ∧ lexeme.text = own ++ c :: others ∧
        back = others ++ written after := by
  induction lexemes generalizing front with
  | nil => simp at h
  | cons first lexemes ih =>
    rw [written_cons] at h
    rcases List.append_eq_append_iff.mp h with ⟨own, rfl, hothers⟩ | ⟨more, hfirst, hmore⟩
    · obtain ⟨before, lexeme, after, own, others, rfl, rfl, htext, hback⟩ := ih hothers
      exact ⟨first :: before, lexeme, after, own, others, rfl, by simp, htext, hback⟩
    · cases more with
      | nil =>
        have hothers : written lexemes = [] ++ c :: back := by simpa using hmore.symm
        obtain ⟨before, lexeme, after, own, others, rfl, hown, htext, hback⟩ := ih hothers
        obtain ⟨hbefore, rfl⟩ := List.append_eq_nil_iff.mp hown.symm
        refine ⟨first :: before, lexeme, after, [], others, rfl, ?_, htext, hback⟩
        rw [written_cons, hbefore, hfirst]
        simp
      | cons d more =>
        obtain ⟨rfl, hback⟩ := List.cons.inj hmore
        exact ⟨[], first, lexemes, front, more, rfl, rfl, hfirst, hback⟩

/-- After some of the lexemes, the fold and the reader still agree. -/
theorem Scans.agrees_after (law : table.Lawful) {before : List Lexeme}
    (scans : Scans table place (before ++ lexeme :: lexemes))
    (folded : Folded (before ++ lexeme :: lexemes))
    (agrees : place.Agrees mode (written (before ++ lexeme :: lexemes))) :
    ∃ place', Scans table place' (lexeme :: lexemes) ∧ Folded (lexeme :: lexemes) ∧
      place'.Agrees (mode.through (written before) (written (lexeme :: lexemes)))
        (written (lexeme :: lexemes)) := by
  induction before generalizing place mode with
  | nil => exact ⟨place, scans, folded, agrees⟩
  | cons first before ih =>
    obtain ⟨-, hagrees⟩ := scans.in_step law folded agrees rfl
    cases scans with
    | cons _ others =>
      rw [written_cons, Mode.through_append, ← written_append]
      exact ih others folded.tail hagrees

/-- Every mark of a fold stands for a character of one of the lexemes of the text, and the fold
agrees with the lexeme. -/
theorem exists_lexeme_of_mark (law : table.Lawful) {before after : List Mark} {mark : Mark}
    (hmarks : fold text = before ++ mark :: after) :
    ∃ front lexeme back own others, ofText table text = front ++ lexeme :: back ∧
      Folding.text before = written front ++ own ∧ lexeme.text = own ++ mark.char :: others ∧
      mark.isLiteral = lexeme.isVerbatim ∧
      (opensRem (mark :: after) = true ↔ lexeme.isRem = true ∧ own = []) := by
  obtain ⟨scans, folded, hwritten⟩ := ofText_spec law text
  have hcut : written (ofText table text) =
      Folding.text before ++ mark.char :: Folding.text after := by
    rw [hwritten, ← text_fold, hmarks, Folding.text, List.map_append, List.map_cons]
    rfl
  obtain ⟨front, lexeme, back, own, others, hlexemes, hfront, htext, hback⟩ := exists_lexeme_at hcut
  rw [hlexemes] at scans folded
  have start : Place.lineStart.Agrees .code (written (front ++ lexeme :: back)) := .inl rfl
  obtain ⟨place, scans, folded, agrees⟩ := scans.agrees_after law folded start
  have hmode : mark.mode = (Mode.code.through (written front) (written (lexeme :: back))).through
      own (mark.char :: others ++ written back) := by
    rw [mode_eq_through hmarks, hfront, hback, Mode.through_append, written_cons, htext]
    simp
  obtain ⟨hliteral, hrem⟩ := scans.through_front law folded agrees htext
  rw [← hmode] at hliteral hrem
  rw [← hback, ← opensRem_iff hmarks] at hrem
  exact ⟨front, lexeme, back, own, others, hlexemes, hfront, htext, hliteral, hrem⟩

end Lexeme

namespace Token

open Folding Lexeme

variable {table : Keyword.Table} {place : Place} {start : Nat} {lexeme : Lexeme}
  {lexemes : List Lexeme} {text : List Char}

theorem tiles_contiguous (h : ∀ lexeme ∈ lexemes, lexeme.text ≠ []) (start : Nat) :
    Tiles start (contiguous start lexemes) (start + Text.byteLength (written lexemes)) := by
  induction lexemes generalizing start with
  | nil => rfl
  | cons first lexemes ih =>
    have hpos := Text.byteLength_pos (h first List.mem_cons_self)
    rw [written_cons, Text.byteLength_append, ← Nat.add_assoc]
    exact ⟨rfl, Nat.lt_add_of_pos_right hpos,
      ih (fun other hmem => h other (List.mem_cons_of_mem _ hmem)) _⟩

theorem contiguous_append (start : Nat) (a b : List Lexeme) :
    contiguous start (a ++ b) =
      contiguous start a ++ contiguous (start + Text.byteLength (written a)) b := by
  induction a generalizing start with
  | nil => rfl
  | cons first a ih =>
    rw [List.cons_append, contiguous, ih, contiguous, written_cons, Text.byteLength_append,
      Nat.add_assoc]
    rfl

theorem mem_contiguous (before : List Lexeme) (lexeme : Lexeme) (after : List Lexeme)
    (start : Nat) :
    let offset := start + Text.byteLength (written before)
    ⟨lexeme, offset, offset + Text.byteLength lexeme.text⟩ ∈
      contiguous start (before ++ lexeme :: after) := by
  rw [contiguous_append, contiguous]
  exact List.mem_append_right _ List.mem_cons_self

theorem toLexeme_mem_of_mem_contiguous {token : Token} (h : token ∈ contiguous start lexemes) :
    token.toLexeme ∈ lexemes := by
  induction lexemes generalizing start with
  | nil => exact absurd h List.not_mem_nil
  | cons first lexemes ih =>
    rcases List.mem_cons.mp h with rfl | h
    · exact List.mem_cons_self
    · exact List.mem_cons_of_mem _ (ih h)

/-- Every mark of a fold has a token of the scan that covers its bytes, and the fold agrees with
the token. -/
theorem exists_token_of_mark (law : table.Lawful) {before after : List Mark} {mark : Mark}
    (hmarks : fold text = before ++ mark :: after) :
    let offset := Text.byteLength (Folding.text before)
    ∃ token ∈ scan table (Folding.text (fold text)),
      (∀ i < mark.char.utf8Size, token.Covers (offset + i)) ∧
      mark.isLiteral = token.isVerbatim ∧
      (opensRem (mark :: after) = true ↔ token = ⟨⟨.keyword, remWord⟩, offset, offset + 3⟩) := by
  intro offset
  obtain ⟨front, lexeme, back, own, others, hlexemes, hfront, htext, hliteral, hrem⟩ :=
    exists_lexeme_of_mark law hmarks
  obtain ⟨start, hstart⟩ : ∃ start, start = Text.byteLength (written front) := ⟨_, rfl⟩
  have hmem : ⟨lexeme, start, start + Text.byteLength lexeme.text⟩ ∈
      scan table (Folding.text (fold text)) := by
    have := mem_contiguous front lexeme back 0
    rwa [← hlexemes, Nat.zero_add, ← hstart] at this
  have hoffset : offset = start + Text.byteLength own := by
    simp only [offset]
    rw [hfront, Text.byteLength_append, hstart]
  refine ⟨_, hmem, fun i hi => ?_, hliteral, hrem.trans ⟨?_, fun heq => ?_⟩⟩
  · rw [Covers, hoffset, htext, Text.byteLength_append, Text.byteLength_cons]
    dsimp only
    omega
  · rintro ⟨hisRem, rfl⟩
    rw [hoffset, Text.byteLength_nil, Nat.add_zero, eq_of_isRem hisRem]
    rfl
  · have hlexeme : lexeme = ⟨.keyword, remWord⟩ := congrArg Token.toLexeme heq
    have hsame : start = offset := congrArg Token.start heq
    refine ⟨hlexeme ▸ rfl, ?_⟩
    apply Decidable.byContradiction
    intro hne
    have := Text.byteLength_pos hne
    omega

/-- A fold and a scan of what it kept agree on strings and comments: a byte of a kept character
belongs to one of them for the fold if and only if a string or a comment of the scan covers it, and
the fold finds a `REM` where the scan does. Outside of strings and comments the scan finds no
blanks. -/
theorem literal_iff_covered (tiers : List Tier) (text : List Char) :
    let table := Keyword.Table.ofTiers tiers
    let marks := fold text
    let tokens := scan table (Folding.text marks)
    (∀ before mark after, marks = before ++ mark :: after →
      let offset := Text.byteLength (Folding.text before)
      (∀ i < mark.char.utf8Size, mark.isLiteral = true ↔
        ∃ token ∈ tokens, token.isVerbatim = true ∧ token.Covers (offset + i)) ∧
      (opensRem (mark :: after) = true ↔ ⟨⟨.keyword, remWord⟩, offset, offset + 3⟩ ∈ tokens)) ∧
    ∀ token ∈ tokens, token.isVerbatim = false → ∀ c ∈ token.text, Text.isBlank c = false := by
  intro table marks tokens
  have law : table.Lawful := Keyword.Table.lawful_ofTiers tiers
  refine ⟨fun before mark after hmarks => ?_, fun token hmem =>
    (ofText_spec law text).2.1 token.toLexeme (toLexeme_mem_of_mem_contiguous hmem)⟩
  have htiles : Tiles 0 tokens _ :=
    tiles_contiguous (fun _ hmem => text_ne_nil_of_mem_scanFrom hmem) 0
  obtain ⟨token, htoken, hcovers, hliteral, hrem⟩ := exists_token_of_mark law hmarks
  refine ⟨fun i hi => ?_, hrem.trans ⟨fun heq => heq ▸ htoken, fun hmem => ?_⟩⟩
  · rw [hliteral]
    refine ⟨fun hverbatim => ⟨token, htoken, hverbatim, hcovers i hi⟩, ?_⟩
    rintro ⟨other, hother, hverbatim, hcovers'⟩
    rwa [htiles.eq_of_covers hother htoken hcovers' (hcovers i hi)] at hverbatim
  · exact htiles.eq_of_covers htoken hmem (hcovers 0 mark.char.utf8Size_pos)
      ⟨Nat.le_refl _, Nat.lt_add_of_pos_right (Nat.succ_pos 2)⟩

end Token

end PocketBasic
