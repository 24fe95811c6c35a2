import PocketBasic.Proofs.Folding.Marks
import PocketBasic.Token.Basic

/-! The spans of tokens. They tile the text from its start to its end (`Tiles`), and none of them
ends inside of a character. What a token says is what the fold marked in its span, and the rest of
the span is blank (`tokenize_spans`). -/

namespace PocketBasic

namespace Lexeme

variable {table : Keyword.Table} {place : Place} {text : List Char} {lexeme : Lexeme}

theorem text_ne_nil_of_mem_scanFrom (h : lexeme ∈ scanFrom table place text) :
    lexeme.text ≠ [] := by
  fun_induction scanFrom table place text with
  | case1 => exact absurd h List.not_mem_nil
  | case2 place c rest kind further found first ih =>
    rcases List.mem_cons.mp h with rfl | h
    · exact List.cons_ne_nil c _
    · exact ih h

end Lexeme

namespace Token

open Folding

/-- The spans of the tokens follow each other from `start` to `finish`, and none of them is
empty. -/
def Tiles : Nat → List Token → Nat → Prop
  | start, [], finish => start = finish
  | start, token :: tokens, finish =>
    token.start = start ∧ start < token.stop ∧ Tiles token.stop tokens finish

/-- The token takes up the byte at the offset. -/
def Covers (token : Token) (offset : Nat) : Prop :=
  token.start ≤ offset ∧ offset < token.stop

instance (token : Token) (offset : Nat) : Decidable (token.Covers offset) :=
  inferInstanceAs (Decidable (_ ∧ _))

variable {start finish offset : Nat} {tokens : List Token} {token other : Token}
  {mode : Mode} {text : List Char} {lexemes : List Lexeme} {marks : List Mark}

theorem Tiles.le (h : Tiles start tokens finish) : start ≤ finish := by
  induction tokens generalizing start with
  | nil => exact Nat.le_of_eq h
  | cons first tokens ih => exact Nat.le_trans (Nat.le_of_lt h.2.1) (ih h.2.2)

theorem Tiles.bounds (h : Tiles start tokens finish) (hmem : token ∈ tokens) :
    start ≤ token.start ∧ token.stop ≤ finish := by
  induction tokens generalizing start with
  | nil => exact absurd hmem List.not_mem_nil
  | cons first tokens ih =>
    obtain ⟨hstart, hstop, hothers⟩ := h
    rcases List.mem_cons.mp hmem with rfl | hmem
    · exact ⟨Nat.le_of_eq hstart.symm, hothers.le⟩
    · have := ih hothers hmem
      omega

/-- No two tokens take up the same byte. -/
theorem Tiles.eq_of_covers (h : Tiles start tokens finish) (hmem : token ∈ tokens)
    (hmem' : other ∈ tokens) (hcovers : token.Covers offset) (hcovers' : other.Covers offset) :
    token = other := by
  induction tokens generalizing start with
  | nil => exact absurd hmem List.not_mem_nil
  | cons first tokens ih =>
    obtain ⟨-, -, hothers⟩ := h
    rw [Covers] at hcovers hcovers'
    rcases List.mem_cons.mp hmem with rfl | htail <;>
      rcases List.mem_cons.mp hmem' with rfl | htail'
    · rfl
    · have := hothers.bounds htail'
      omega
    · have := hothers.bounds htail
      omega
    · exact ih hothers htail htail'

/-- Tokens that tile nothing are none. -/
theorem Tiles.eq_nil_iff (h : Tiles start tokens finish) : tokens = [] ↔ start = finish := by
  cases tokens with
  | nil => exact iff_of_true rfl h
  | cons first tokens =>
    have := h.2.1
    have := h.2.2.le
    exact iff_of_false (List.cons_ne_nil _ _) (by omega)

/-! ### Spans of marks -/

/-- What the fold marked in the span of the token. -/
def marked (marks : List Mark) (token : Token) : List Mark :=
  marks.filter fun mark => decide (token.Covers mark.offset)

theorem marked_append_of_le {front back : List Mark}
    (hfront : ∀ mark ∈ front, mark.offset < token.start) :
    marked (front ++ back) token = marked back token := by
  have hnil : marked front token = [] := by
    refine List.filter_eq_nil_iff.mpr fun mark hmem => ?_
    have := hfront mark hmem
    rw [decide_eq_true_eq, Covers]
    omega
  rw [marked, List.filter_append]
  exact congrArg (· ++ marked back token) hnil

theorem marked_append_of_covers {front back : List Mark}
    (hfront : ∀ mark ∈ front, token.Covers mark.offset)
    (hback : ∀ mark ∈ back, token.stop ≤ mark.offset) : marked (front ++ back) token = front := by
  rw [marked, List.filter_append, List.filter_eq_self.mpr, List.filter_eq_nil_iff.mpr,
    List.append_nil]
  · intro mark hmem
    have := hback mark hmem
    rw [decide_eq_true_eq, Covers]
    omega
  · exact fun mark hmem => decide_eq_true (hfront mark hmem)

theorem spread_cons_cons (start finish : Nat) (lexeme next : Lexeme) (lexemes : List Lexeme)
    (marks : List Mark) :
    let stop := (marks.take lexeme.text.length).getLast?.elim start Mark.stop
    spread start finish (lexeme :: next :: lexemes) marks =
      ⟨lexeme, start, stop⟩ ::
        spread stop finish (next :: lexemes) (marks.drop lexeme.text.length) := by
  rw [spread]
  simp

/-- The token ends between two characters of the text that starts at `start`, and says what was
marked in its span. -/
structure Says (token : Token) (start : Nat) (text : List Char) (marks : List Mark) : Prop where
  stop_eq : ∃ offset, Text.IsBoundary text offset ∧ token.stop = start + offset
  text_eq : token.text = Folding.text (marked marks token)

/-- A token stays as it is where a text is put in front that ends before it. -/
theorem Says.append_left {before after : List Char} {own others : List Mark}
    (h : token.Says (start + Text.byteLength before) after others)
    (hstart : start + Text.byteLength before ≤ token.start)
    (hown : ∀ mark ∈ own, mark.offset < start + Text.byteLength before) :
    token.Says start (before ++ after) (own ++ others) := by
  obtain ⟨⟨_, ⟨first, second, rfl, rfl⟩, hoffset⟩, htext⟩ := h
  refine ⟨⟨_, ⟨before ++ first, second, by simp, rfl⟩, ?_⟩, ?_⟩
  · rw [hoffset, Text.byteLength_append, Nat.add_assoc]
  · rwa [marked_append_of_le fun mark hmem => Nat.lt_of_lt_of_le (hown mark hmem) hstart]

/-- Lexemes that say what was marked in a text are given spans that tile the text. Each ends between
two characters, and says what was marked in its span. -/
theorem spread_spec (hmarks : foldFrom mode start text = marks)
    (hlexemes : lexemes.flatMap Lexeme.text = Folding.text marks)
    (hne : ∀ lexeme ∈ lexemes, lexeme.text ≠ []) (hsome : lexemes ≠ []) :
    Tiles start (spread start (start + Text.byteLength text) lexemes marks)
        (start + Text.byteLength text) ∧
      ∀ token ∈ spread start (start + Text.byteLength text) lexemes marks,
        token.Says start text marks := by
  induction lexemes generalizing mode start text marks with
  | nil => exact absurd rfl hsome
  | cons lexeme lexemes ih =>
    rw [List.flatMap_cons] at hlexemes
    obtain ⟨own, others, rfl, hown, hothers⟩ := List.map_eq_append_iff.mp hlexemes.symm
    have hownNe : own ≠ [] := by
      rintro rfl
      exact hne lexeme List.mem_cons_self hown.symm
    obtain ⟨before, after, mode', rfl, hbefore, hstop, hinside, hfold⟩ := exists_cut hmarks hownNe
    have hpos := Text.byteLength_pos hbefore
    rw [Text.byteLength_append]
    cases lexemes with
    | nil =>
      obtain rfl : others = [] := List.map_eq_nil_iff.mp hothers
      refine ⟨⟨rfl, Nat.lt_add_of_pos_right (by omega), rfl⟩, fun token htoken => ?_⟩
      obtain rfl := List.mem_singleton.mp htoken
      refine ⟨⟨_, Text.isBoundary_byteLength _, by rw [Text.byteLength_append]⟩, ?_⟩
      rw [marked_append_of_covers _ fun _ hmem => absurd hmem List.not_mem_nil]
      · exact hown.symm
      · intro mark hmem
        have := hinside mark hmem
        exact ⟨this.1, by dsimp only; omega⟩
    | cons next lexemes =>
      have hlength : lexeme.text.length = own.length := by rw [← hown, List.length_map]
      obtain ⟨htiles, hspans⟩ := ih hfold hothers.symm
        (fun other hmem => hne other (List.mem_cons_of_mem _ hmem)) (List.cons_ne_nil _ _)
      rw [spread_cons_cons, hlength, List.take_left, List.drop_left, hstop, ← Nat.add_assoc]
      refine ⟨⟨rfl, Nat.lt_add_of_pos_right hpos, htiles⟩, fun token htoken => ?_⟩
      rcases List.mem_cons.mp htoken with rfl | htoken
      · refine ⟨⟨_, ⟨before, after, rfl, rfl⟩, rfl⟩, ?_⟩
        rw [marked_append_of_covers hinside fun mark hmem => ?_]
        · exact hown.symm
        · rw [← hfold] at hmem
          exact (bounds_of_mem_foldFrom hmem).1
      · exact (hspans token htoken).append_left (htiles.bounds htoken).1 fun mark hmem =>
          (hinside mark hmem).2

/-- A text of which the fold marks nothing is blank. -/
theorem isBlank_of_fold_eq_nil (h : fold text = []) : ∀ c ∈ text, Text.isBlank c = true := by
  intro c hc
  obtain ⟨before, after, htext⟩ := List.append_of_mem hc
  exact isBlank_of_not_mem_fold ⟨before, after, htext, rfl⟩ (by simp [h])

/-- The tokens of a text tile it and end between two characters. Unless the text is blank, a token
says what the fold marked in its span. -/
theorem tiles_tokenize (table : Keyword.Table) (text : List Char) :
    Tiles 0 (tokenize table text) (Text.byteLength text) ∧
      (∀ token ∈ tokenize table text, Text.IsBoundary text token.stop) ∧
      (((∀ c ∈ text, Text.isBlank c = true) ∧
          ∃ token, tokenize table text = [token] ∧ token.kind = .blank ∧ token.text = text) ∨
        ∀ token ∈ tokenize table text,
          token.text = Folding.text (marked (fold text) token)) := by
  simp only [tokenize]
  split
  next hnone =>
    split
    next htext => simp [htext, Tiles]
    next htext =>
      have hfold : fold text = [] := by
        have hwritten := Lexeme.flatMap_text_scanFrom table .lineStart (Folding.text (fold text))
        rw [← Lexeme.scan, hnone] at hwritten
        exact List.map_eq_nil_iff.mp hwritten.symm
      refine ⟨⟨rfl, Text.byteLength_pos htext, rfl⟩, ?_,
        .inl ⟨isBlank_of_fold_eq_nil hfold, _, rfl, rfl, rfl⟩⟩
      intro token hmem
      rw [List.mem_singleton.mp hmem]
      exact Text.isBoundary_byteLength text
  next hsome =>
    have hmarks : foldFrom .code 0 text = fold text := rfl
    obtain ⟨htiles, hspans⟩ := spread_spec hmarks
      (Lexeme.flatMap_text_scanFrom table .lineStart (Folding.text (fold text)))
      (fun _ hmem => Lexeme.text_ne_nil_of_mem_scanFrom hmem) hsome
    rw [Nat.zero_add] at htiles hspans
    refine ⟨htiles, fun token hmem => ?_, .inr fun token hmem => (hspans token hmem).text_eq⟩
    obtain ⟨offset, hboundary, hstop⟩ := (hspans token hmem).stop_eq
    rwa [hstop, Nat.zero_add]

/-- The tokens of a text tile it, and none of them ends inside of a character. A blank text is one
token that says all of it, unless it is empty. A token of another text says what the fold marked in
its span, which is what stands there in the text but for blanks. -/
theorem tokenize_spans (table : Keyword.Table) (text : List Char) :
    let tokens := tokenize table text
    Tiles 0 tokens (Text.byteLength text) ∧ (tokens = [] ↔ text = []) ∧
      (∀ token ∈ tokens, Text.IsBoundary text token.stop) ∧
      (((∀ c ∈ text, Text.isBlank c = true) ∧
          ∃ token, tokens = [token] ∧ token.kind = .blank ∧ token.text = text) ∨
        ∀ token ∈ tokens,
          token.text = Folding.text (marked (fold text) token) ∧
            (∀ mark ∈ marked (fold text) token, Text.At text mark.offset mark.char) ∧
            ∀ offset c, token.Covers offset → Text.At text offset c →
              (∀ mark ∈ marked (fold text) token, mark.offset ≠ offset) →
              Text.isBlank c = true) := by
  intro tokens
  obtain ⟨htiles, hboundary, htext⟩ := tiles_tokenize table text
  refine ⟨htiles, ?_, hboundary, htext.imp_right fun htext token hmem => ⟨htext token hmem, ?_, ?_⟩⟩
  · rw [htiles.eq_nil_iff]
    cases text with
    | nil => simp
    | cons c rest =>
      have := Text.byteLength_pos (List.cons_ne_nil c rest)
      exact iff_of_false (by omega) (List.cons_ne_nil c rest)
  · exact fun mark hmark => at_of_mem_fold (List.mem_filter.mp hmark).1
  · intro offset c hcovers hat hnone
    refine isBlank_of_not_mem_fold hat fun mark hmark heq => hnone mark ?_ heq
    exact List.mem_filter.mpr ⟨hmark, decide_eq_true (heq ▸ hcovers)⟩

end Token

end PocketBasic
