import PocketBasic.Proofs.Listing.Forms
import PocketBasic.Proofs.Listing.SpelledInFull

/-! Compacting a program again. A compact form holds no blanks outside of strings and comments, even
where its lexemes run into each other and a fold sees another comment than the line has
(`Scans.kept_compactForm`). So it is what its lexemes are written as, and it changes only if one of
these has another compact spelling, which none has if the lexemes of the line do not clash. -/

namespace PocketBasic

namespace Lexeme

open Folding

variable {table : Keyword.Table} {place : Place} {mode : Mode} {lexeme : Lexeme}
  {lexemes : List Lexeme} {text rest : List Char}

/-! ### Folding glued lexemes -/

/-- Where a fold may stand between lexemes that are written without blanks. Inside of a `REM` the
rest of it is still to come. -/
inductive Between : Mode → List Char → Prop where
  | code {text : List Char} : Between .code text
  | comment {text : List Char} : Between .comment text
  | letters {text : List Char} (h : ['E', 'M'] <+: Text.content text) : Between .rem text
  | letter {text : List Char} (h : ['M'] <+: Text.content text) : Between .rem text

namespace Between

theorem next {c : Char} (hplain : isPlain c = true) (hblank : Text.isBlank c = false)
    (h : Between mode (c :: text)) : Between (mode.next c text) text := by
  have hline := not_terminator_of_isPlain hplain
  cases h with
  | code =>
    rw [next_of_isPlain hplain]
    split
    next hrem =>
      rw [completesRem_eq, List.isPrefixOf_iff_prefix] at hrem
      exact .letters hrem.2
    next => exact .code
  | comment =>
    simp only [Mode.next, hline, Bool.false_eq_true, if_false]
    exact .comment
  | letters h =>
    rw [Text.content_cons_of_not_blank hblank, List.cons_prefix_cons] at h
    obtain ⟨rfl, h⟩ := h
    exact .letter h
  | letter h =>
    rw [Text.content_cons_of_not_blank hblank, List.cons_prefix_cons] at h
    obtain ⟨rfl, -⟩ := h
    exact .comment

theorem through (hplain : ∀ c ∈ text, isPlain c = true)
    (hblank : ∀ c ∈ text, Text.isBlank c = false) (h : Between mode (text ++ rest)) :
    Between (mode.through text rest) rest := by
  induction text generalizing mode with
  | nil => exact h
  | cons c text ih =>
    rw [Mode.through_cons]
    exact ih (fun d hd => hplain d (List.mem_cons_of_mem _ hd))
      (fun d hd => hblank d (List.mem_cons_of_mem _ hd))
      (h.next (hplain c List.mem_cons_self) (hblank c List.mem_cons_self))

/-- A fold that sees no letter of a `REM` is in the code or in a comment. -/
theorem eq_code {c : Char} (h : Between mode (c :: text)) (hblank : Text.isBlank c = false)
    (hletters : c ∉ ['E', 'M']) (hcomment : mode ≠ .comment) : mode = .code := by
  cases h with
  | code => rfl
  | comment => exact absurd rfl hcomment
  | letters h | letter h =>
    rw [Text.content_cons_of_not_blank hblank, List.cons_prefix_cons] at h
    simp [← h.1] at hletters

end Between

/-- A fold goes through the compact spelling of a word, a number or a mark and stands between
lexemes again. -/
theorem Opens.between_compactForm (terse : table.Terse) (first : Opens table place lexeme text)
    (hcode : lexeme.isVerbatim = false) (hline : lexeme.kind ≠ .newline)
    (hblank : ∀ c ∈ lexeme.compactForm table, Text.isBlank c = false) (hmode : mode ≠ .comment)
    (h : Between mode (lexeme.compactForm table ++ rest)) :
    Between (mode.through (lexeme.compactForm table) rest) rest ∧
      (lexeme.placeAfter = .afterRem →
        mode.through (lexeme.compactForm table) rest = .comment) := by
  cases hrem : lexeme.isRem with
  | true =>
    have hform : lexeme.compactForm table = remWord :=
      (isRem_iff.mp ((first.isRem_compacted terse).trans hrem)).2
    rw [hform] at h ⊢
    obtain rfl := h.eq_code rfl (by simp) hmode
    rw [through_remWord]
    exact ⟨.comment, fun _ => rfl⟩
  | false =>
    refine ⟨h.through (fun c hc => ?_) hblank, fun hafter => ?_⟩
    · obtain ⟨-, hin⟩ := first.inCode terse.toLawful hcode hline hrem
      rcases first.mem_compactForm terse hc with hc | hc
      · exact hin.isPlain c hc
      · exact (isPlain_of_isSpellingChar hc).1
    · rw [placeAfter_eq_inLine hline hrem] at hafter
      contradiction

/-- A fold keeps the compact spelling of a lexeme, and stands between lexemes again, unless there
are no more of them. -/
theorem Scans.between (terse : table.Terse) (scans : Scans table place (lexeme :: lexemes))
    (folded : Folded (lexeme :: lexemes)) (line : OnLine (lexeme :: lexemes))
    (hplace : place ≠ .afterRem) (hmode : mode ≠ .comment)
    (h : Between mode (lexeme.compactForm table ++ rest)) :
    kept mode (lexeme.compactForm table) rest = lexeme.compactForm table ∧
      (lexemes = [] ∨ Between (mode.through (lexeme.compactForm table) rest) rest ∧
        (lexeme.placeAfter = .afterRem →
          mode.through (lexeme.compactForm table) rest = .comment)) := by
  have hscans := scans
  cases scans with
  | cons first others =>
  cases hverbatim : lexeme.isVerbatim with
  | false =>
    have hblank := first.not_blank_compactForm terse (folded.head hverbatim)
    exact ⟨kept_of_not_blank hblank mode rest, .inr (first.between_compactForm terse hverbatim
      (line lexeme List.mem_cons_self) hblank hmode h)⟩
  | true =>
    rw [compactForm_of_kind_ne (kind_ne_of_isVerbatim hverbatim)] at h ⊢
    cases first with
    | remark => exact absurd rfl hplace
    | comment _ hline hend =>
      obtain rfl := h.eq_code rfl (by simp) hmode
      rw [kept_cons_of_keeps (.inr rfl)]
      exact ⟨congrArg _ (kept_comment hline rest).1,
        .inl (hscans.eq_nil_of_comment terse.toLawful line rfl)⟩
    | string _ quoted =>
      obtain rfl := h.eq_code rfl (by simp) hmode
      obtain ⟨hkept, hthrough⟩ := quoted.in_step rest
      rw [kept_cons_of_keeps (.inr rfl), Mode.through_cons]
      refine ⟨congrArg _ hkept, ?_⟩
      rcases hthrough with hthrough | hend
      · refine .inr ⟨?_, fun hafter => ?_⟩
        · rw [show Mode.code.next '"' _ = .quoted from rfl, hthrough]
          exact .code
        · rw [placeAfter_eq_inLine (by simp) rfl] at hafter
          contradiction
      · exact .inl (others.eq_nil_of_endsLine terse.toLawful line.tail hend)
    | crlf | cr | lf | lineNumber | number | fractional | rem | keyword | pair | mark
      | identifier => contradiction

/-- Folding keeps what lexemes of a line are written as in their compact spellings, whether they
clash or not. -/
theorem Scans.kept_compactForm (terse : table.Terse) (scans : Scans table place lexemes)
    (folded : Folded lexemes) (line : OnLine lexemes)
    (inline : Inline (lexemes.flatMap (compactForm table)))
    (between : Between mode (lexemes.flatMap (compactForm table)))
    (hplace : place = .afterRem → mode = .comment) :
    kept mode (lexemes.flatMap (compactForm table)) [] =
      lexemes.flatMap (compactForm table) := by
  induction lexemes generalizing place mode with
  | nil => rfl
  | cons lexeme lexemes ih =>
    by_cases hmode : mode = .comment
    · rw [hmode]
      exact (kept_comment inline []).1
    · rw [List.flatMap_cons] at inline between ⊢
      obtain ⟨hkept, hothers⟩ := scans.between terse folded line (mt hplace hmode) hmode between
      rw [kept_append, List.append_nil, hkept]
      cases scans with
      | cons first others =>
        rcases hothers with rfl | ⟨hbetween, hafter⟩
        · rfl
        · rw [ih others folded.tail line.tail (List.forall_mem_append.mp inline).2 hbetween hafter]

/-! ### Compact texts -/

/-- Every lexeme of the text has its compact spelling. -/
def IsShortest (table : Keyword.Table) (text : List Char) : Prop :=
  ∀ lexeme ∈ ofText table text, lexeme.compactForm table = lexeme.text

theorem Scans.compactForm_of_mem_compacted (terse : table.Terse) (scans : Scans table place lexemes)
    (h : lexeme ∈ lexemes.map (compacted table)) : lexeme.compactForm table = lexeme.text := by
  obtain ⟨source, hsource, rfl⟩ := List.mem_map.mp h
  obtain ⟨place, rest, first⟩ := scans.opens_of_mem hsource
  exact first.compactForm_compacted terse

/-- The compact spellings of the lexemes of a text that folding keeps write the text if and only if
each lexeme has its own. -/
theorem flatMap_compactForm_eq_self_iff (terse : table.Terse) (h : kept .code text [] = text) :
    (ofText table text).flatMap (compactForm table) = text ↔ IsShortest table text := by
  obtain ⟨scans, -, hwritten⟩ := ofText_spec terse.toLawful text
  rw [h] at hwritten
  constructor
  · intro hforms lexeme hmem
    have hcompact :=
      scans.eq_compacted terse scans rfl (by rw [written_compacted, hforms, hwritten])
    exact scans.compactForm_of_mem_compacted terse (hcompact ▸ hmem)
  · intro hshortest
    exact (List.flatMap_congr hshortest).trans hwritten

/-- Lexemes that do not clash write a compact text in their compact spellings. -/
theorem isShortest_flatMap_compactForm (terse : table.Terse)
    (scans : Scans table .lineStart lexemes) (folded : Folded lexemes)
    (clear : ¬ Clashes table lexemes) :
    IsShortest table (lexemes.flatMap (compactForm table)) := by
  intro lexeme hmem
  rw [ofText_compacted terse scans folded clear] at hmem
  exact scans.compactForm_of_mem_compacted terse hmem

end Lexeme

open Lexeme

/-- A line is compacted as it is if and only if its compact form is read as
lexemes in their compact spellings. -/
theorem compactLine_compactLine_iff {table : Keyword.Table} (terse : table.Terse)
    {line : List Char} (h : Inline line) :
    compactLine table (compactLine table line) = compactLine table line ↔
      IsShortest table
        ((ofText table (LineNumber.split line).2).flatMap (compactForm table)) := by
  have hbody := Listing.inline_split h
  obtain ⟨scans, folded, -⟩ := ofText_spec terse.toLawful (LineNumber.split line).2
  have hkept := scans.kept_compactForm terse folded (onLine_ofText terse.toLawful hbody)
    (inline_flatMap_compactForm terse hbody) .code nofun
  rw [compactLine_eq (split_compactLine terse line), compactLine_eq (Prod.eta _).symm,
    List.append_cancel_left_eq, flatMap_compactForm_eq_self_iff terse hkept]

@[simp] theorem compactLine_nil (table : Keyword.Table) : compactLine table [] = [] := by
  have hsplit : LineNumber.split [] = (none, []) := rfl
  rw [compactLine_eq hsplit, ofText, scan, Folding.text_fold, Folding.kept_nil, scanFrom_nil]
  rfl

theorem compactLine_of_isBlankLine {table : Keyword.Table} {line : List Char}
    (h : Text.isBlankLine line = true) : compactLine table line = [] := by
  rw [← compactLine_nil table]
  exact compactLine_congr (Folding.kept_of_blank (List.all_eq_true.mp h) .code [])

/-- Compacting a program again changes nothing if and only if its compact form is read as lexemes
in their compact spellings. That is so if the lexemes of no line clash. -/
theorem compact_compact (tiers : List Tier) (ending : LineEnding) (program : List Char) :
    let table := Keyword.Table.ofTiers tiers
    let again := compact table ending (compact table ending program)
    (again = compact table ending program ↔ ∀ line ∈ Program.cutLines program,
      IsShortest table
        ((ofText table (LineNumber.split line).2).flatMap (compactForm table))) ∧
    ((∀ line ∈ Program.cutLines program, ¬ Clashes table (ofText table (LineNumber.split line).2)) →
      again = compact table ending program) := by
  intro table again
  have terse : table.Terse := Keyword.Table.terse_ofTiers tiers
  have hiff : again = compact table ending program ↔ ∀ line ∈ Program.cutLines program,
      IsShortest table
        ((ofText table (LineNumber.split line).2).flatMap (compactForm table)) := by
    refine (Program.join_map_again_iff (inline_compactLine terse) program ending).trans ?_
    refine forall₂_congr fun line hline => ?_
    rw [← compactLine_compactLine_iff terse (Program.inline_of_mem_cutLines hline)]
    cases hblank : Text.isBlankLine line with
    | true => simp [compactLine_of_isBlankLine hblank]
    | false => simp [isBlankLine_compactLine terse hblank]
  refine ⟨hiff, fun clear => hiff.mpr fun line hline => ?_⟩
  obtain ⟨scans, folded, -⟩ := ofText_spec terse.toLawful (LineNumber.split line).2
  exact isShortest_flatMap_compactForm terse scans folded (clear line hline)

set_option maxRecDepth 10000 in
/-- `10 PRINT A` and `RESTORE` are compacted once and for all. -/
theorem compact_compact_print :
    let table := Keyword.Table.ofTiers [.core]
    let program := ['1', '0', ' ', 'P', 'R', 'I', 'N', 'T', ' ', 'A', '\n', 'R', 'E', 'S', 'T', 'O',
      'R', 'E']
    (∀ line ∈ Program.cutLines program, ¬ Clashes table (ofText table (LineNumber.split line).2)) ∧
      compact table .lf (compact table .lf program) = compact table .lf program := by
  intro table program
  have hfull : ∀ line ∈ Program.cutLines program,
      ∀ lexeme ∈ ofText table (LineNumber.split line).2, lexeme.isSpelledInFull table = true := by
    decide +kernel
  have clear : ∀ line ∈ Program.cutLines program,
      ¬ Clashes table (ofText table (LineNumber.split line).2) := fun line hline =>
    not_clashes (Keyword.Table.lawful_ofTiers [.core]) (hfull line hline)
  exact ⟨clear, (compact_compact [.core] .lf program).2 clear⟩

set_option maxRecDepth 10000 in
/-- `AREA` is compacted to `AREAD`, which is another keyword. -/
theorem compact_compact_read :
    let table := Keyword.Table.ofTiers [.core]
    let program := ['A', 'R', 'E', 'A']
    compact table .lf program = ['A', 'R', 'E', 'A', 'D'] ∧
      compact table .lf (compact table .lf program) ≠ compact table .lf program := by
  decide +kernel

end PocketBasic
