import PocketBasic.Proofs.Lexeme.Context
import PocketBasic.Proofs.Lexeme.Line

/-! Blanks at the end of a line. They are part of the last string or comment, if they are part of
anything, so trimming the line trims its last lexeme (`ofText_trim`). The lexemes in front of it
look no further than the text that is left. -/

namespace PocketBasic.Lexeme

variable {table : Keyword.Table} {place : Place} {lexeme : Lexeme} {lexemes : List Lexeme}
  {text word rest blanks : List Char}

/-- The lexemes without the blanks at their end. -/
def trimmed : List Lexeme → List Lexeme
  | [] => []
  | [lexeme] =>
    if Text.trimRight lexeme.text = [] then [] else [⟨lexeme.kind, Text.trimRight lexeme.text⟩]
  | lexeme :: next :: lexemes => lexeme :: trimmed (next :: lexemes)

/-! ### Words and numbers in front of blanks -/

theorem Stands.append_blanks (hblanks : ∀ c ∈ blanks, Text.isBlank c = true)
    (stands : Stands word text) : Stands word (text ++ blanks) := by
  refine ⟨stands.isPrefix.trans (List.prefix_append ..), fun i hpos hi hrem => ?_⟩
  apply stands.uninterrupted i hpos hi
  have hle := stands.isPrefix.length_le
  rw [List.drop_append_of_le_length (by omega)] at hrem
  refine Text.isPrefix_of_append (fun c hc hmem => ?_) hrem
  have hword : ∀ c ∈ remWord, Text.isBlank c = false := by decide
  have hblank := hblanks c (List.mem_of_head? hc)
  rw [hword c hmem] at hblank
  contradiction

theorem exponentRun_append_blanks (hblanks : ∀ c ∈ blanks, Text.isBlank c = true)
    (c : Char) (text : List Char) :
    exponentRun (c :: text ++ blanks) = exponentRun (c :: text) := by
  have hstart : startsDigit blanks = false ∧ signRun blanks = 0 := by
    cases blanks with
    | nil => exact ⟨rfl, rfl⟩
    | cons d blanks =>
      have hd := hblanks d List.mem_cons_self
      simp only [Text.isBlank, Bool.or_eq_true, beq_iff_eq] at hd
      rcases hd with rfl | rfl
      all_goals exact ⟨rfl, rfl⟩
  rw [exponentRun_append_congr hstart.1 startsDigit_nil hstart.2 rfl, List.append_nil]

/-- A lexeme is read in front of a text that has lost the blanks at its end. -/
theorem Opens.trimRight (law : table.Lawful) (hblanks : ∀ c ∈ blanks, Text.isBlank c = true)
    (hne : rest ≠ []) (first : Opens table place lexeme (rest ++ blanks)) :
    Opens table place lexeme rest := by
  obtain ⟨c, tail, rfl⟩ := List.exists_cons_of_ne_nil hne
  refine first.congr law ⟨rfl, fun h => ?_⟩ fun hword hrem => ?_
  · rwa [exponentRun_append_blanks hblanks] at h
  obtain ⟨hnot, hlongest⟩ := first.bounded law hword hrem
  rw [← List.append_assoc] at hnot hlongest
  refine ⟨fun i hi hstarts => hnot i hi ?_, fun word hspells stands => ?_⟩
  · rw [List.drop_append_of_le_length (by rw [List.length_append]; omega)]
    exact hstarts.trans (List.prefix_append ..)
  · exact hlongest word hspells (stands.append_blanks hblanks)

/-! ### Lexemes in front of blanks -/

theorem inline_trimRight (h : Inline text) : Inline (Text.trimRight text) := by
  intro c hc
  obtain ⟨blanks, -, heq⟩ := Text.exists_trimRight text
  apply h c
  rw [heq]
  exact List.mem_append_left blanks hc

theorem trimmed_singleton (h : Text.trimRight lexeme.text ≠ []) :
    trimmed [lexeme] = [⟨lexeme.kind, Text.trimRight lexeme.text⟩] := by
  rw [trimmed, if_neg h]

/-- A lexeme at the end of a text that loses its blanks is read as what is left of it. -/
theorem Opens.trimmed_singleton (law : table.Lawful) (first : Opens table place lexeme [])
    (hblank : lexeme.isVerbatim = false → ∀ c ∈ lexeme.text, Text.isBlank c = false) :
    Scans table place (trimmed [lexeme]) ∧
      written (trimmed [lexeme]) = Text.trimRight lexeme.text := by
  have last {left : List Char} (h : Text.trimRight lexeme.text = left) (hne : left ≠ [])
      (first : Opens table place ⟨lexeme.kind, left⟩ []) :
      Scans table place (trimmed [lexeme]) ∧
        written (trimmed [lexeme]) = Text.trimRight lexeme.text := by
    rw [Lexeme.trimmed_singleton (h ▸ hne), h]
    exact ⟨.cons first .nil, List.append_nil _⟩
  have same (h : Text.trimRight lexeme.text = lexeme.text) :
      Scans table place (trimmed [lexeme]) ∧
        written (trimmed [lexeme]) = Text.trimRight lexeme.text := by
    exact last h (first.text_ne_nil law) first
  by_cases hverbatim : lexeme.isVerbatim = true
  · cases first with
    | @remark text _ hne hline hend =>
      by_cases hnil : Text.trimRight text = []
      · rw [trimmed, if_pos hnil]
        exact ⟨.nil, hnil.symm⟩
      · exact last rfl hnil (.remark hnil (inline_trimRight hline) hend)
    | @string _ text _ hplace h =>
      cases h with
      | closed hline hq => exact same (Text.trimRight_append_of_not_blank (by decide) ('"' :: _))
      | opened hline hq hend =>
        refine last (Text.trimRight_cons_of_not_blank (by decide) text) (by simp)
          (.string hplace (.opened (inline_trimRight hline) ?_ hend))
        intro hmem
        apply hq
        obtain ⟨blanks, -, heq⟩ := Text.exists_trimRight text
        rw [heq]
        exact List.mem_append_left blanks hmem
    | @comment _ text _ hplace hline hend =>
      exact last (Text.trimRight_cons_of_not_blank (by decide) text) (by simp)
        (.comment hplace (inline_trimRight hline) hend)
    | crlf | cr | lf | lineNumber | number | fractional | rem | keyword | pair | mark
      | identifier => contradiction
  · apply same
    apply Text.trimRight_eq
    exact Text.endsBlank_of_not_blank (hblank (by simpa using hverbatim))

/-- Nothing but a remark consists of blanks. -/
theorem Scans.isRem_of_blank (law : table.Lawful)
    (scans : Scans table lexeme.placeAfter lexemes) (folded : Folded lexemes)
    (hline : lexeme.kind ≠ .newline) (hne : lexemes ≠ [])
    (h : ∀ c ∈ written lexemes, Text.isBlank c = true) : lexeme.isRem = true := by
  rw [← Bool.not_eq_false]
  intro hrem
  have hstart := scans.startsBlank_eq law folded (by
    rw [placeAfter_eq_inLine hline hrem]
    decide)
  cases scans with
  | nil => exact hne rfl
  | cons first _ =>
    obtain ⟨c, tail, htext⟩ := List.exists_cons_of_ne_nil (first.text_ne_nil law)
    rw [written_cons, htext] at h hstart
    have hc := h c (by simp)
    rw [show Text.isBlank c = false from hstart] at hc
    contradiction

/-- The blanks at the end of a line belong to its last lexeme. -/
theorem Scans.trimmed (law : table.Lawful) (scans : Scans table place lexemes)
    (folded : Folded lexemes) (line : OnLine lexemes) :
    Scans table place (trimmed lexemes) ∧
      written (trimmed lexemes) = Text.trimRight (written lexemes) := by
  induction scans with
  | nil => exact ⟨.nil, rfl⟩
  | @cons place lexeme lexemes first others ih =>
    cases lexemes with
    | nil =>
      have := first.trimmed_singleton law folded.head
      rwa [written_cons, written_nil, List.append_nil]
    | cons next lexemes =>
      obtain ⟨hothers, hwritten⟩ := ih folded.tail line.tail
      obtain ⟨blanks, hblanks, heq⟩ := Text.exists_trimRight (written (next :: lexemes))
      rw [Lexeme.trimmed, written_cons, written_cons, hwritten]
      by_cases hnil : Text.trimRight (written (next :: lexemes)) = []
      · have hrem := others.isRem_of_blank law folded.tail (line lexeme List.mem_cons_self) (by simp)
          (Text.blank_of_trimRight_eq_nil hnil)
        obtain rfl := eq_of_isRem hrem
        refine ⟨.cons (.rem (first.place_ne (by simp) (by simp))) hothers, ?_⟩
        rw [hnil, List.append_nil, Text.trimRight_append_of_blank
          (Text.blank_of_trimRight_eq_nil hnil)]
        rfl
      · rw [heq] at first
        refine ⟨.cons ?_ hothers, (Text.trimRight_append_of_ne_nil hnil _).symm⟩
        rw [hwritten]
        exact first.trimRight law hblanks hnil

/-- Trimming a text that is folded is folding a text that is trimmed. -/
theorem kept_trim (text : List Char) :
    Folding.kept .code (Text.trim text) [] = Text.trimRight (Folding.kept .code text []) := by
  obtain ⟨before, hbefore, hleft⟩ := Text.exists_trimLeft text
  obtain ⟨after, hafter, hright⟩ := Text.exists_trimRight (Text.trimLeft text)
  have hcut : before ++ (Text.trim text ++ after) = text := by
    rw [Text.trim, ← hright, ← hleft]
  have hcontent : Text.content after = Text.content [] := Text.content_eq_nil_iff.mpr hafter
  have hkept : ∃ blanks, (∀ c ∈ blanks, Text.isBlank c = true) ∧
      Folding.kept .code (before ++ (Text.trim text ++ after)) [] =
        Folding.kept .code (Text.trim text) [] ++ blanks := by
    rw [Folding.kept_append, Folding.kept_of_blank hbefore,
      Folding.Mode.through_of_blank hbefore, if_neg (by decide), List.nil_append,
      Folding.kept_append, List.append_nil, Folding.kept_congr hcontent,
      Folding.kept_of_blank hafter]
    split
    · exact ⟨after, hafter, rfl⟩
    · exact ⟨[], by simp, rfl⟩
  obtain ⟨blanks, hblanks, heq⟩ := hkept
  rw [hcut] at heq
  rw [heq, Text.trimRight_append_of_blank hblanks]
  exact (Text.trimRight_eq (Folding.endsBlank_kept (Text.isTrimmed_trim text).right .code [])).symm

/-- The lexemes of a line that is trimmed. -/
theorem ofText_trim (law : table.Lawful) (h : Inline text) :
    ofText table (Text.trim text) = Lexeme.trimmed (ofText table text) := by
  obtain ⟨scans, folded, hwritten⟩ := ofText_spec law text
  obtain ⟨hscans, htrimmed⟩ := scans.trimmed law folded (onLine_ofText law h)
  apply ofText_eq_of_scans law hscans
  rw [htrimmed, hwritten, kept_trim]

end PocketBasic.Lexeme
