/-
# Lines as parts of a text

Split at its line feeds, a text is the list of its lines.  The offsets at which lines start and end say
where in the text each of these parts stands.

The main facts:

* `length_lines` : there is a line for every offset at which a line starts;
* `getElem?_lines` : what stands between the start and the end of a line is that line;
* `line_positionOf_iff` : an offset is on a line if it lies between the line's start and its end;
* `existsUnique_positionOf` : each column of a line is the position of one offset.
-/
import Provenance.Proofs.Text.Position

namespace Provenance.Text

variable {t : Text} {index start offset : Nat}

/-- The parts of a text between its line feeds. -/
def lines (t : Text) : List Text := t.splitOn CodeUnit.newline

/-! ## Splitting -/

theorem lines_append_newline (s t : Text) :
    lines (s ++ CodeUnit.newline :: t) = s.lines ++ t.lines :=
  List.splitOn_append_cons_self s t

/-- A text without a line feed is one line. -/
theorem lines_of_not_mem (h : CodeUnit.newline ∉ t) : t.lines = [t] :=
  List.splitOn_eq_singleton h

/-- Every line feed starts a line. -/
theorem length_lines_eq (t : Text) : t.lines.length = t.countNewlines + 1 := by
  induction t with
  | nil => rfl
  | cons u rest ih =>
    by_cases hu : u = CodeUnit.newline
    · rw [hu, ← List.nil_append (CodeUnit.newline :: rest), lines_append_newline,
        List.length_append, ih]
      simp [lines, countNewlines, Nat.add_comm]
    · have hsplit : lines (u :: rest) = (lines rest).modifyHead (u :: ·) := by
        rw [lines, List.splitOn, List.splitOnP_cons_eq_if_modifyHead, if_neg (by simpa using hu)]
        rfl
      rw [hsplit, List.length_modifyHead, ih, countNewlines, countNewlines, List.count_cons_of_ne hu]

/-- There is a line for every offset at which a line starts. -/
theorem length_lines (t : Text) : t.lines.length = t.lineOffsets.length := by
  rw [length_lines_eq, length_lineOffsets]

/-- Behind a text that ends its last line, lines are split on their own. -/
theorem lines_append_of_column_eq_zero {s : Text} (h : s.stop.column = 0) (t : Text) :
    ∃ before : List Text, before.length = s.countNewlines ∧ lines (s ++ t) = before ++ t.lines := by
  rcases stop_column_eq_zero.mp h with rfl | hlast
  · exact ⟨[], rfl, rfl⟩
  · obtain ⟨s, rfl⟩ := List.getLast?_eq_some_iff.mp hlast
    refine ⟨lines s, ?_, ?_⟩
    · rw [length_lines_eq, countNewlines_append]
      rfl
    · rw [List.append_assoc, List.singleton_append, lines_append_newline]

/-! ## Where lines stand -/

/-- A line does not end before it starts, and no line feed stands in it. -/
theorem not_mem_line (h : t.lineOffsets[index]? = some start) :
    start ≤ t.lineEnd index ∧ CodeUnit.newline ∉ (t.take (t.lineEnd index)).drop start := by
  have hstart := (positionOf_lineStart h).1
  have hself : t.onLine start start = true := onLine_iff.mpr ⟨Nat.le_refl _, by simp⟩
  have hle : start ≤ t.lineEnd index :=
    (onLine_iff_le_lineEnd h (Nat.le_refl _) hstart).mp hself
  have hend := (onLine_iff_le_lineEnd h hle (lineEnd_le_length t index)).mpr (Nat.le_refl _)
  exact ⟨hle, (onLine_iff.mp hend).2⟩

/-- A line ends with the text or in front of a line feed. -/
theorem drop_lineEnd (h : t.lineOffsets[index]? = some start) :
    t.drop (t.lineEnd index) = [] ∨
      ∃ after, t.drop (t.lineEnd index) = CodeUnit.newline :: after := by
  obtain ⟨hle, hno⟩ := not_mem_line h
  cases hafter : t.drop (t.lineEnd index) with
  | nil => exact Or.inl rfl
  | cons u after =>
    refine Or.inr ⟨after, ?_⟩
    have hlt : t.lineEnd index < t.length := by
      have hlength := congrArg List.length hafter
      rw [List.length_drop, List.length_cons] at hlength
      omega
    -- the line would go on over a unit that is no line feed
    have hon : ¬ t.onLine start (t.lineEnd index + 1) = true := fun hon =>
      absurd ((onLine_iff_le_lineEnd h (Nat.le_succ_of_le hle) hlt).mp hon) (by omega)
    have hu : t[t.lineEnd index] = u := by
      rw [List.drop_eq_getElem_cons hlt] at hafter
      exact (List.cons.inj hafter).1
    have hlength : start ≤ (t.take (t.lineEnd index)).length := by
      rw [List.length_take]
      omega
    rw [onLine_iff, List.take_succ_eq_append_getElem hlt, hu,
      List.drop_append_of_le_length hlength, List.mem_append, List.mem_singleton] at hon
    by_contra hne
    exact hon ⟨Nat.le_succ_of_le hle, fun hmem =>
      hmem.elim hno fun hu => hne (by rw [hu])⟩

/-- **What stands between the start and the end of a line** is the line. -/
theorem getElem?_lines (h : t.lineOffsets[index]? = some start) :
    t.lines[index]? = some ((t.take (t.lineEnd index)).drop start) := by
  obtain ⟨hstart, hpos⟩ := positionOf_lineStart h
  obtain ⟨hle, hno⟩ := not_mem_line h
  have hstop : stop (t.take start) = ⟨index, 0⟩ := by rw [← positionOf_eq_stop hstart, hpos]
  -- the lines in front of it come from the text in front of it
  obtain ⟨before, hbefore, hlines⟩ :=
    lines_append_of_column_eq_zero (congrArg Position.column hstop) (t.drop start)
  rw [List.take_append_drop] at hlines
  have hindex : before.length = index := by rw [hbefore, ← stop_line, hstop]
  have hdrop : t.drop start =
      (t.take (t.lineEnd index)).drop start ++ t.drop (t.lineEnd index) := by
    have hlength : start ≤ (t.take (t.lineEnd index)).length := by
      rw [List.length_take]
      exact Nat.le_min.mpr ⟨hle, hstart⟩
    rw [← List.drop_append_of_le_length hlength, List.take_append_drop]
  rw [hlines, List.getElem?_append_right (by omega), hindex, Nat.sub_self, hdrop]
  rcases drop_lineEnd h with hnil | ⟨after, hafter⟩
  · rw [hnil, List.append_nil, lines_of_not_mem hno]
    rfl
  · rw [hafter, lines_append_newline, lines_of_not_mem hno]
    rfl

/-- The length of a line, by its start and its end. -/
theorem length_take_lineEnd (h : t.lineOffsets[index]? = some start) :
    start + ((t.take (t.lineEnd index)).drop start).length = t.lineEnd index := by
  have hle := (not_mem_line h).1
  have hlength := lineEnd_le_length t index
  rw [List.length_drop, List.length_take]
  omega

/-- **An offset is on a line** if it lies between the line's start and its end, both included. -/
theorem line_positionOf_iff (h : t.lineOffsets[index]? = some start) (hoffset : offset ≤ t.length) :
    (t.positionOf offset).line = index ↔ start ≤ offset ∧ offset ≤ t.lineEnd index := by
  constructor
  · rintro rfl
    obtain ⟨first, hfirst, hsum, hend⟩ := exists_lineStart hoffset
    obtain rfl : first = start := Option.some.inj (hfirst.symm.trans h)
    exact ⟨by omega, hend⟩
  · rintro ⟨hle, hend⟩
    obtain ⟨column, rfl⟩ := Nat.exists_eq_add_of_le hle
    rw [positionOf_of_le_lineEnd h hend]

/-- The column of an offset is counted from the start of its line. -/
theorem start_add_column (h : t.lineOffsets[(t.positionOf offset).line]? = some start)
    (hoffset : offset ≤ t.length) : start + (t.positionOf offset).column = offset := by
  obtain ⟨first, hfirst, hsum, -⟩ := exists_lineStart hoffset
  rw [← Option.some.inj (hfirst.symm.trans h), hsum]

/-- An offset has as many lines in front of its own as line feeds in front of it. -/
theorem line_positionOf (h : offset ≤ t.length) :
    (t.positionOf offset).line = countNewlines (t.take offset) := by
  rw [positionOf_eq_stop h, stop_line]

/-- Different offsets have different positions. -/
theorem eq_of_positionOf_eq {a b : Nat} (ha : a ≤ t.length) (hb : b ≤ t.length)
    (h : t.positionOf a = t.positionOf b) : a = b := by
  have hoffset := offsetOf?_positionOf ha
  rw [h, offsetOf?_positionOf hb] at hoffset
  exact (Option.some.inj hoffset).symm

/-- **Each column of a line**, that of its end included, is the position of one offset. -/
theorem existsUnique_positionOf {line : Text} {column : Nat} (hline : t.lines[index]? = some line)
    (hcolumn : column ≤ line.length) :
    ∃! offset : Nat, offset ≤ t.length ∧ t.positionOf offset = ⟨index, column⟩ := by
  have hlt : index < t.lineOffsets.length := by
    rw [← length_lines]
    exact (List.getElem?_eq_some_iff.mp hline).1
  obtain ⟨start, hstart⟩ : ∃ start, t.lineOffsets[index]? = some start :=
    ⟨_, List.getElem?_eq_getElem hlt⟩
  obtain rfl := Option.some.inj (hline.symm.trans (getElem?_lines hstart))
  have hlength := length_take_lineEnd hstart
  have hle : start + column ≤ t.lineEnd index := by omega
  have hend := Nat.le_trans hle (lineEnd_le_length t index)
  have hposition := positionOf_of_le_lineEnd hstart hle
  exact ⟨start + column, ⟨hend, hposition⟩, fun other ⟨hother, h⟩ =>
    eq_of_positionOf_eq hother hend (h.trans hposition.symm)⟩

end Provenance.Text
