import PocketBasic.Proofs.Folding.Origin
import PocketBasic.Proofs.Token.ByteRuns
import PocketBasic.Proofs.Token.Remarks

/-! The scanner on bytes never fails. A turn of its loop that starts between two characters reads the
bytes of the lexemes that stand there, one lexeme or a `REM` with its comment, and stops right after
them (`exists_turn`), so each turn advances to a place where the next one may start, and the loop
comes to the end of the text with the spans of all lexemes (`scan?_eq`). Each span is then found in
the folded text and in its offset map (`place?_eq`). -/

namespace PocketBasic.Token.Bytewise

open Lexeme Text

variable {table : Keyword.Table} {text rest : List Char} {c : Char} {byte : UInt8} {i : Nat}
  {lineStart : Bool}

/-! ### One turn -/

/-- Where the scanner on characters stands at the start of a turn. -/
def placeOf (lineStart : Bool) : Place :=
  if lineStart then .lineStart else .inLine

theorem placeOf_ne_afterRem (lineStart : Bool) : placeOf lineStart ≠ .afterRem := by
  cases lineStart <;> decide

theorem placeOf_eq_lineStart : placeOf lineStart = .lineStart ↔ lineStart = true := by
  cases lineStart <;> decide

/-- The turn that adds the spans of some lexemes. -/
def Turn.ofLexemes (i : Nat) (lexemes : List Lexeme) (lineStart : Bool) : Turn :=
  ⟨(contiguous i lexemes).map .ofToken, lineStart, i + byteLength (written lexemes)⟩

/-- The turn that adds the span of one lexeme. -/
def Turn.ofLexeme (i : Nat) (lexeme : Lexeme) : Turn :=
  .ofLexemes i [lexeme] (lexeme.kind == .newline)

theorem Turn.one_eq {kind : Kind} {stop : Nat} {text : List Char} (hkind : kind ≠ .newline)
    (hstop : stop = i + byteLength text) : Turn.one kind i stop = .ofLexeme i ⟨kind, text⟩ := by
  rw [ofLexeme, ofLexemes, one, hstop, beq_false_of_ne hkind, written_cons, written_nil,
    List.append_nil]
  rfl

/-- The lexeme that stands in front of a text. -/
def firstLexeme (table : Keyword.Table) (place : Place) (c : Char) (rest : List Char) : Lexeme :=
  ⟨(head table place c rest).1, c :: rest.take (head table place c rest).2⟩

theorem andThen?_test {p : Char → Bool} {d : Char} (hd : d.toNat < 128) (hp : ReadsAscii p)
    (h : Leaves text i (c :: rest)) :
    andThen? (c == d) (test? p (bytes text) (i + 1)) = some (c == d && rest.head?.any p) := by
  rw [andThen?]
  by_cases hc : c = d
  · rw [if_pos (by simpa using hc), test?_eq hp (h.tail (hc ▸ hd)), beq_iff_eq.mpr hc, Bool.true_and]
  · rw [if_neg (by simpa using hc), beq_false_of_ne hc, Bool.false_and]

theorem newline_turn (hc : isTerminator c = true) (rest : List Char) :
    let pair := c == '\r' && rest.head?.any (· == '\n')
    let stop := if pair = true then i + 2 else i + 1
    ⟨[⟨.newline, i, stop⟩], true, stop⟩ =
      Turn.ofLexeme i
        ⟨.newline, c :: rest.take (if c == '\r' && rest.head? == some '\n' then 1 else 0)⟩ := by
  rw [any_beq]
  by_cases hpair : (c == '\r' && rest.head? == some '\n') = true
  · simp only [if_pos hpair]
    simp only [Bool.and_eq_true, beq_iff_eq] at hpair
    obtain ⟨rfl, hfeed⟩ := hpair
    obtain ⟨more, rfl⟩ := List.head?_eq_some_iff.mp hfeed
    rfl
  · simp only [if_neg hpair]
    rcases isTerminator_iff.mp hc with rfl | rfl <;> rfl

theorem keyword_turn (law : table.Lawful) {spelling : Keyword.Spelling}
    (hkeyword : keywordAt? table (c :: rest) = some spelling) :
    Turn.one .keyword i (i + byteLength spelling.text) =
      .ofLexeme i ⟨.keyword, c :: rest.take (spelling.text.length - 1)⟩ := by
  obtain ⟨hspells, hstands, -⟩ := keywordAt?_eq_some hkeyword
  obtain ⟨d, others, htext, -⟩ := hspells.exists_cons law
  obtain ⟨after, heq⟩ := hstands.isPrefix
  rw [htext, List.cons_append] at heq
  obtain ⟨rfl, rfl⟩ := List.cons.inj heq
  rw [htext, List.length_cons, Nat.add_sub_cancel, List.take_left]
  exact Turn.one_eq (by decide) rfl

theorem symbol_turn {symbol : Symbol} (hsymbol : Symbol.ofChar? c = some symbol)
    (h : Leaves text i (c :: rest)) (hmem : byte ∈ String.utf8EncodeChar c) :
    markOrName? text (Char.ofUInt8 byte) i =
      some (.ofLexeme i ⟨(markOrName c rest).1, c :: rest.take (markOrName c rest).2⟩) := by
  have hc := toNat_lt_of_ofChar? hsymbol
  rw [(ofUInt8_eq_iff hmem hc).mpr rfl, markOrName?, markOrName, hsymbol]
  dsimp only
  rw [(h.tail hc).bind_getElem? (readsAscii_ofPair? c)]
  cases hpair : rest.head?.bind (Symbol.ofPair? c) with
  | some pair =>
    obtain ⟨d, hhead, hpair⟩ := Option.bind_eq_some_iff.mp hpair
    obtain ⟨more, rfl⟩ := List.head?_eq_some_iff.mp hhead
    have hstop : i + 2 = i + byteLength [c, d] := by rw [(byteLength_of_ofPair? hpair).2]
    exact congrArg some (Turn.one_eq (by simp) hstop)
  | none => exact congrArg some (Turn.one_eq (by simp) (by simp [utf8Size_of_ascii hc]))

theorem name_turn (hsymbol : Symbol.ofChar? c = none) (h : Leaves text i (c :: rest))
    (hmem : byte ∈ String.utf8EncodeChar c) :
    markOrName? text (Char.ofUInt8 byte) i =
      some (.ofLexeme i ⟨(markOrName c rest).1, c :: rest.take (markOrName c rest).2⟩) := by
  have hpair : rest.head?.bind (Symbol.ofPair? c) = none := by
    refine Option.bind_eq_none_iff.mpr fun d _ => Option.eq_none_iff_forall_ne_some.mpr ?_
    intro symbol hd
    obtain ⟨first, hfirst⟩ := exists_ofChar?_of_ofPair? hd
    rw [hsymbol] at hfirst
    contradiction
  rw [markOrName?, readsAscii_ofChar?.eq_of_mem hmem, readsAscii_isAlpha.eq_of_mem hmem, markOrName,
    hpair, hsymbol]
  dsimp only
  by_cases hc : c.isAlpha = true
  · have hascii := toNat_lt_of_isAlpha hc
    rw [if_pos hc, hc, Bool.true_and, ← any_beq,
      (h.tail hascii).any_getElem? (readsAscii_beq (by decide)), any_beq]
    by_cases hdollar : rest.head? = some '$'
    · obtain ⟨more, rfl⟩ := List.head?_eq_some_iff.mp hdollar
      have hstop : i + 2 = i + byteLength [c, '$'] := by
        rw [byteLength_cons, utf8Size_of_ascii hascii]
        rfl
      exact congrArg some (Turn.one_eq (by decide) hstop)
    · rw [if_neg (by simpa using hdollar), if_neg (by simpa using hdollar)]
      exact congrArg some (Turn.one_eq (by decide) (by simp [utf8Size_of_ascii hascii]))
  · rw [if_neg hc, if_neg (by simp [hc])]
    have happend : Leaves text i (c :: rest ++ []) := (List.append_nil (c :: rest)).symm ▸ h
    rw [h.byteLength_eq, happend.slice?_eq]
    exact congrArg some (Turn.one_eq (by decide) rfl)

/-- A turn that starts at no `REM` adds the span of the lexeme there. -/
theorem turn?_of_not_rem (law : table.Lawful) (h : Leaves text i (c :: rest))
    (hrem : startsRem (c :: rest) = false) (lineStart : Bool) :
    turn? table text lineStart i =
      some (.ofLexeme i (firstLexeme table (placeOf lineStart) c rest)) := by
  obtain ⟨byte, hmem, hbyte⟩ := h.exists_byte c.utf8Size_pos
  rw [Nat.add_zero] at hbyte
  have hterm := readsAscii_isTerminator.eq_of_mem hmem
  have hdigit := readsAscii_isDigit.eq_of_mem hmem
  have hbeq {d : Char} (hd : d.toNat < 128) : (Char.ofUInt8 byte == d) = (c == d) :=
    (readsAscii_beq hd).eq_of_mem hmem
  have heq {d : Char} (hd : d.toNat < 128) := ofUInt8_eq_iff hmem hd
  rw [turn?, hbyte, firstLexeme]
  -- both read the same conditions in the same order, and what the head finds is named, since the
  -- lexeme there asks for it twice
  obtain ⟨found, hfound⟩ : ∃ found, found = head table (placeOf lineStart) c rest := ⟨_, rfl⟩
  rw [← hfound]
  rw [head] at hfound
  simp only [Option.bind_eq_bind, Option.bind_some, hterm, hdigit, hbeq (d := '\r') (by decide),
    hbeq (d := '.') (by decide), heq (d := '"') (by decide), heq (d := '\'') (by decide),
    andThen?_test (d := '\r') (by decide) (readsAscii_beq (d := '\n') (by decide)) h,
    andThen?_test (d := '.') (by decide) readsAscii_isDigit h, startsRem?_eq h, hrem,
    placeOf_ne_afterRem, if_false, Bool.false_eq_true] at hfound ⊢
  by_cases hc : isTerminator c = true
  · rw [if_pos hc] at hfound ⊢
    rw [hfound]
    exact congrArg some (newline_turn hc rest)
  rw [if_neg hc] at hfound ⊢
  by_cases hd : c.isDigit = true
  · simp only [hd, if_true, Bool.true_and, Bool.true_or, placeOf_eq_lineStart] at hfound ⊢
    cases lineStart with
    | true =>
      rw [hfound, if_pos rfl, if_pos rfl, ends_digits.eq h, digitRun_cons hd]
      exact congrArg some (Turn.one_eq (by decide) rfl)
    | false =>
      rw [hfound, if_neg (by decide), if_neg (by decide), ends_number.eq h, numberRun_cons hd]
      exact congrArg some (Turn.one_eq (by decide) rfl)
  simp only [hd, Bool.false_and, Bool.false_or, Bool.false_eq_true, if_false] at hfound ⊢
  by_cases hpoint : (c == '.' && rest.head?.any Char.isDigit) = true
  · rw [if_pos hpoint] at hfound ⊢
    simp only [Bool.and_eq_true, beq_iff_eq] at hpoint
    obtain ⟨rfl, -⟩ := hpoint
    rw [hfound, ends_number.eq h, numberRun_point]
    exact congrArg some (Turn.one_eq (by decide) rfl)
  rw [if_neg hpoint] at hfound ⊢
  by_cases hquote : c = '"'
  · rw [if_pos hquote] at hfound ⊢
    subst hquote
    rw [hfound, ends_string.eq (h.tail (by decide))]
    exact congrArg some (Turn.one_eq (by decide) (Nat.add_assoc ..))
  rw [if_neg hquote] at hfound ⊢
  by_cases hmark : c = '\''
  · rw [if_pos hmark] at hfound ⊢
    rw [hfound, ends_line.eq h, lineRun_cons (by simpa using hc)]
    exact congrArg some (Turn.one_eq (by decide) rfl)
  rw [if_neg hmark] at hfound ⊢
  rw [hfound, matchKeyword?_eq law h, Option.bind_some]
  cases hkeyword : keywordAt? table (c :: rest) with
  | some spelling => exact congrArg some (keyword_turn law hkeyword)
  | none =>
    cases hsymbol : Symbol.ofChar? c with
    | some symbol => exact symbol_turn hsymbol h hmem
    | none => exact name_turn hsymbol h hmem

/-- A turn at a `REM` adds the word, and the comment after it if there is one. -/
theorem turn?_of_rem {line after : List Char} (h : Leaves text i (remWord ++ (line ++ after)))
    (hline : Inline line) (hend : endsLine after = true) (lineStart : Bool) :
    turn? table text lineStart i =
      some (.ofLexemes i (⟨.keyword, remWord⟩ :: remark line) false) := by
  have hfirst : Leaves text i ('R' :: ['E', 'M'] ++ (line ++ after)) := h
  obtain ⟨byte, hmem, hbyte⟩ := hfirst.exists_byte (Char.utf8Size_pos _)
  rw [Nat.add_zero] at hbyte
  have hchar : Char.ofUInt8 byte = 'R' := (ofUInt8_eq_iff hmem (by decide)).mpr rfl
  have hword : startsRem (remWord ++ (line ++ after)) = true :=
    startsRem_iff.mpr (List.prefix_append ..)
  have hcomment : endOfLine? (bytes text) (i + 3) = some (i + 3 + byteLength line) := by
    have hrest : Leaves text (i + 3) (line ++ after) := h.append
    rw [ends_line.eq hrest, lineRun_append hline hend, List.take_left]
  have hpoint : ∀ o, andThen? ('R' == '.') o = some false := fun o => if_neg (by decide)
  have hdigit : 'R'.isDigit = false := rfl
  rw [turn?, hbyte]
  simp only [Option.bind_eq_bind, Option.bind_some, hchar, hpoint, hdigit, startsRem?_eq h, hword,
    hcomment, if_true, Bool.false_and, Bool.false_or]
  rw [if_neg (by decide), if_neg (by decide), if_neg (by decide), if_neg (by decide),
    if_neg (by decide), Turn.ofLexemes, written_cons, written_remark, byteLength_append,
    byteLength_remWord, ← Nat.add_assoc, contiguous, byteLength_remWord, remark]
  cases line with
  | nil => rw [if_neg (by simp), if_pos rfl]; rfl
  | cons c line =>
    have hlong : i + 3 < i + 3 + byteLength (c :: line) :=
      Nat.lt_add_of_pos_right (Text.byteLength_pos (List.cons_ne_nil c line))
    rw [if_pos hlong, if_neg (List.cons_ne_nil c line)]
    rfl

theorem placeAfter_firstLexeme (hrem : startsRem (c :: rest) = false) (place : Place) :
    (firstLexeme table place c rest).placeAfter =
      placeOf ((firstLexeme table place c rest).kind == .newline) := by
  have hnot : (firstLexeme table place c rest).isRem = false := by
    rw [Bool.eq_false_iff]
    intro hisRem
    have hword : c :: rest.take (head table place c rest).2 = remWord := (isRem_iff.mp hisRem).2
    have hpre : remWord <+: c :: rest :=
      hword ▸ List.cons_prefix_cons.mpr ⟨rfl, List.take_prefix ..⟩
    rw [startsRem_iff.mpr hpre] at hrem
    contradiction
  rw [placeAfter, hnot]
  by_cases hkind : (firstLexeme table place c rest).kind = .newline
  · rw [if_pos hkind, hkind]
    rfl
  · rw [if_neg hkind, beq_false_of_ne hkind]
    rfl

/-- Every turn succeeds: it adds the spans of the next lexemes, and stops where they do. -/
theorem exists_turn (law : table.Lawful) (h : Leaves text i (c :: rest)) (lineStart : Bool) :
    ∃ lexemes lineStart' after, c :: rest = written lexemes ++ after ∧ written lexemes ≠ [] ∧
      scanFrom table (placeOf lineStart) (c :: rest) =
        lexemes ++ scanFrom table (placeOf lineStart') after ∧
      turn? table text lineStart i = some (.ofLexemes i lexemes lineStart') := by
  cases hrem : startsRem (c :: rest) with
  | true =>
    obtain ⟨more, hmore⟩ := startsRem_iff.mp hrem
    obtain ⟨line, after, rfl, -, hline, hend⟩ := exists_lineRun more
    rw [← hmore] at h ⊢
    refine ⟨⟨.keyword, remWord⟩ :: remark line, false, after, ?_, by simp [remWord], ?_,
      turn?_of_rem h hline hend lineStart⟩
    · rw [written_cons, written_remark, List.append_assoc]
    · rw [scanFrom_remWord law (placeOf_ne_afterRem lineStart), scanFrom_afterRem hline hend,
        List.cons_append]
      rfl
  | false =>
    refine ⟨[firstLexeme table (placeOf lineStart) c rest],
      (firstLexeme table (placeOf lineStart) c rest).kind == .newline,
      rest.drop (head table (placeOf lineStart) c rest).2, ?_, by simp [firstLexeme], ?_, ?_⟩
    · simp [firstLexeme]
    · rw [scanFrom_cons, ← placeAfter_firstLexeme hrem]
      rfl
    · exact turn?_of_not_rem law h hrem lineStart

/-! ### The loop -/

/-- The loop gives the spans of the lexemes of what is left, and ends at the end of the text. -/
theorem scanFrom?_eq (law : table.Lawful) (h : Leaves text i rest) (lineStart : Bool) :
    scanFrom? table text lineStart i =
      some ((contiguous i (scanFrom table (placeOf lineStart) rest)).map .ofToken,
        byteLength text) := by
  induction hn : rest.length using Nat.strongRecOn generalizing i rest lineStart with
  | ind n ih =>
  cases rest with
  | nil =>
    have := h.byteLength_eq
    rw [byteLength_nil, Nat.add_zero] at this
    rw [scanFrom?, if_neg (by omega), scanFrom_nil, this]
    rfl
  | cons c rest =>
    obtain ⟨lexemes, lineStart', after, hcut, hne, hscan, hturn⟩ := exists_turn law h lineStart
    have hlength := h.byteLength_eq
    have hpos := Text.byteLength_pos hne
    have hshorter : after.length < n := by
      have := List.length_pos_iff.mpr hne
      rw [← hn, hcut, List.length_append]
      omega
    rw [hcut] at h
    rw [byteLength_cons] at hlength
    have := c.utf8Size_pos
    rw [scanFrom?, if_pos (by omega), hturn, Option.bind_eq_bind, Option.bind_some, Turn.ofLexemes,
      if_pos (Nat.lt_add_of_pos_right hpos)]
    dsimp only
    rw [ih after.length hshorter h.append lineStart' rfl, hscan, contiguous_append, List.map_append]
    rfl

theorem scan?_eq (law : table.Lawful) (text : List Char) :
    scan? table text = some ((Token.scan table text).map .ofToken, byteLength text) :=
  scanFrom?_eq law (leaves_zero text) true

/-! ### Tokens -/

variable {done marks : List Folding.Mark}

/-- The last byte of a mark is found in the offset map. -/
theorem stopOf?_origin (front back : List Folding.Mark) (mark : Folding.Mark) :
    stopOf? (Folding.origin (front ++ mark :: back))
        (byteLength (Folding.text (front ++ [mark]))) = some mark.stop := by
  have hpos := mark.char.utf8Size_pos
  have hlast : byteLength (Folding.text (front ++ [mark])) =
      byteLength (Folding.text front) + (mark.char.utf8Size - 1) + 1 := by
    simp [Folding.text]
    omega
  rw [hlast, stopOf?, Folding.origin_append, ← Folding.length_origin,
    List.getElem?_append_right (Nat.le_add_right _ _), Nat.add_sub_cancel_left,
    Folding.origin_cons, List.getElem?_append_left (by rw [Folding.Mark.length_offsets]; omega),
    Folding.Mark.offsets, List.getElem?_range' (by omega), Option.map_some, Folding.Mark.stop,
    Option.some_inj]
  omega

/-- A span that holds marks ends where the last of them does. -/
theorem stopOf?_marks {own : List Folding.Mark} (hne : own ≠ []) (done others : List Folding.Mark)
    (start : Nat) :
    stopOf? (Folding.origin (done ++ own ++ others)) (byteLength (Folding.text (done ++ own))) =
      some (own.getLast?.elim start Folding.Mark.stop) := by
  obtain ⟨shorter, mark, rfl⟩ := (List.eq_nil_or_concat own).resolve_left hne
  rw [List.concat_eq_append, ← List.append_assoc done, List.append_assoc _ [mark],
    List.singleton_append, stopOf?_origin, List.getLast?_concat]
  rfl

/-- The characters of marks next to each other are a part of the folded text. -/
theorem slice?_marks (done own others : List Folding.Mark) :
    slice? (Folding.text (done ++ own ++ others)) (byteLength (Folding.text done))
      (byteLength (Folding.text (done ++ own))) = some (Folding.text own) :=
  slice?_eq_some_iff.mpr ⟨Folding.text done, Folding.text others,
    by rw [Folding.text_append, Folding.text_append], rfl, by rw [Folding.text_append]⟩

/-- Every span is placed: the tokens are those that the marks of a fold give. -/
theorem place?_eq {lexemes : List Lexeme} {all : List Folding.Mark} (hall : all = done ++ marks)
    (hlexemes : written lexemes = Folding.text marks) (hne : ∀ lexeme ∈ lexemes, lexeme.text ≠ [])
    (start finish : Nat) :
    place? (Folding.text all) (Folding.origin all) finish start
        ((contiguous (byteLength (Folding.text done)) lexemes).map .ofToken) =
      some (spread start finish lexemes marks) := by
  induction lexemes generalizing done marks start with
  | nil => rfl
  | cons lexeme lexemes ih =>
    -- the marks of the lexeme, and those of the lexemes after it
    obtain ⟨own, others, rfl, hown, hothers⟩ := List.map_eq_append_iff.mp hlexemes.symm
    have hown : Folding.text own = lexeme.text := hown
    have hstart : byteLength (Folding.text done) + byteLength lexeme.text =
        byteLength (Folding.text (done ++ own)) := by
      rw [Folding.text_append, byteLength_append, hown]
    rw [← List.append_assoc] at hall
    have hslice := slice?_marks done own others
    have hplaced := ih hall hothers.symm fun other hmem => hne other (List.mem_cons_of_mem _ hmem)
    rw [← hall, hown] at hslice
    rw [contiguous, List.map_cons, place?, hstart]
    dsimp only [Span.ofToken]
    rw [hslice]
    cases lexemes with
    | nil => rfl
    | cons next lexemes =>
      have hsome : own ≠ [] := by
        rintro rfl
        exact hne lexeme List.mem_cons_self hown.symm
      have hstop := stopOf?_marks hsome done others start
      have hlength : lexeme.text.length = own.length := by rw [← hown, Folding.text, List.length_map]
      rw [← hall] at hstop
      rw [spread_cons_cons, hlength, List.take_left, List.drop_left, hstop,
        if_neg (by simp [contiguous])]
      simp only [Option.bind_eq_bind, Option.bind_some, hplaced]
      rfl

theorem spread_eq_nil_iff {start finish : Nat} {lexemes : List Lexeme} :
    spread start finish lexemes marks = [] ↔ lexemes = [] := by
  rw [← List.map_eq_nil_iff, map_toLexeme_spread]

/-- Scanning the bytes of a folded text and placing the spans gives the tokens of the text. -/
theorem tokenize?_eq (law : table.Lawful) (text : List Char) :
    tokenize? table text = some (tokenize table text) := by
  obtain ⟨marks, hmarks⟩ : ∃ marks, marks = Folding.fold text := ⟨_, rfl⟩
  obtain ⟨lexemes, hlexemes⟩ : ∃ lexemes, lexemes = Lexeme.scan table (Folding.text marks) :=
    ⟨_, rfl⟩
  have hspans : scan? table (Folding.text marks) =
      some ((contiguous 0 lexemes).map .ofToken, byteLength (Folding.text marks)) := by
    rw [scan?_eq law, Token.scan, hlexemes]
  have hall : marks = [] ++ marks := (List.nil_append marks).symm
  have hplaced : place? (Folding.text marks) (Folding.origin marks) (byteLength text) 0
      ((contiguous 0 lexemes).map .ofToken) = some (spread 0 (byteLength text) lexemes marks) :=
    place?_eq hall (hlexemes ▸ flatMap_text_scanFrom ..)
      (fun _ hmem => text_ne_nil_of_mem_scanFrom (hlexemes ▸ hmem)) ..
  rw [tokenize?, tokenize, ← hmarks, ← hlexemes]
  dsimp only
  rw [hspans, Option.bind_eq_bind, Option.bind_some]
  dsimp only
  rw [hplaced, Option.bind_eq_bind, Option.bind_some]
  cases hcase : lexemes with
  | nil => by_cases htext : text = [] <;> simp [spread, htext]
  | cons lexeme others =>
    have hsome : (spread 0 (byteLength text) (lexeme :: others) marks).isEmpty = false := by
      rw [List.isEmpty_eq_false_iff, Ne, spread_eq_nil_iff]
      exact List.cons_ne_nil lexeme others
    rw [hsome, Bool.false_and]
    rfl

/-- The scanner on bytes never fails, whatever the text. A turn of its loop that starts between two
characters advances and ends between two characters, the loop ends at the end of the text with the
spans of the tokens that the text is scanned as, and every span is placed, with the tokens of the
text as the result. -/
theorem never_fails (tiers : List Tier) (text : List Char) :
    let table := Keyword.Table.ofTiers tiers
    (∀ i < byteLength text, IsBoundary text i → ∀ lineStart, ∃ turn,
      turn? table text lineStart i = some turn ∧ i < turn.next ∧ IsBoundary text turn.next) ∧
    scan? table text = some ((Token.scan table text).map .ofToken, byteLength text) ∧
    tokenize? table text = some (tokenize table text) := by
  intro table
  have law : table.Lawful := Keyword.Table.lawful_ofTiers tiers
  refine ⟨fun i hi hboundary lineStart => ?_, scan?_eq law text, tokenize?_eq law text⟩
  obtain ⟨front, rest, htext, hfront⟩ := hboundary
  cases rest with
  | nil =>
    rw [htext, List.append_nil, hfront] at hi
    exact absurd hi (Nat.lt_irrefl i)
  | cons c rest =>
    obtain ⟨lexemes, lineStart', after, hcut, hne, -, hturn⟩ :=
      exists_turn law ⟨front, htext, hfront⟩ lineStart
    refine ⟨_, hturn, Nat.lt_add_of_pos_right (Text.byteLength_pos hne),
      front ++ written lexemes, after, ?_, ?_⟩
    · rw [htext, hcut, List.append_assoc]
    · rw [byteLength_append, hfront]
      rfl

end PocketBasic.Token.Bytewise
