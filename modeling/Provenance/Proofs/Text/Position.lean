/-
# Laws of offsets and positions

The position of an offset is the position just after what stands before it.  Positions therefore
grow with offsets, and two offsets are on one line if no line feed stands between them.

The main facts:

* `after_append` : positions after texts put one behind the other;
* `positionOf_eq_after` : the position of an offset, by the text before it;
* `offsetOf?_positionOf` : the position of an offset has that offset;
* `covers_positionOf` : one position covers another if no line feed stands between them.
-/
import Provenance.Proofs.Mapping.Place

namespace Provenance.Text

/-! ## Texts put one behind the other -/

theorem lineOffsetsAfter_append (pos : Nat) (s t : Text) :
    lineOffsetsAfter pos (s ++ t) =
      lineOffsetsAfter pos s ++ lineOffsetsAfter (pos + s.length) t := by
  induction s generalizing pos with
  | nil => rfl
  | cons u rest ih =>
    have hpos : pos + 1 + rest.length = pos + (u :: rest).length := by
      rw [List.length_cons]
      omega
    rw [List.cons_append, lineOffsetsAfter, lineOffsetsAfter, ih, hpos]
    split <;> rfl

theorem lastLineLength?_append (s t : Text) :
    lastLineLength? (s ++ t) = t.lastLineLength?.or (s.lastLineLength?.map (· + t.length)) := by
  induction s with
  | nil => simp [lastLineLength?]
  | cons u rest ih =>
    rw [List.cons_append, lastLineLength?, ih, lastLineLength?]
    cases lastLineLength? t with
    | some n => rfl
    | none =>
      cases lastLineLength? rest with
      | some n => rfl
      | none =>
        simp only [Option.map_none, Option.or_none, List.length_append]
        split <;> rfl

theorem countNewlines_append (s t : Text) :
    countNewlines (s ++ t) = s.countNewlines + t.countNewlines := List.count_append

/-- A text without a line feed has no last line of its own. -/
theorem lastLineLength?_eq_none {t : Text} :
    t.lastLineLength? = none ↔ CodeUnit.newline ∉ t := by
  induction t with
  | nil => simp [lastLineLength?]
  | cons u rest ih =>
    rw [lastLineLength?, List.mem_cons, not_or, ← ih]
    cases lastLineLength? rest with
    | some n => simp
    | none => simp [eq_comm]

/-- A text without a last line of its own starts no line. -/
theorem countNewlines_eq_zero {t : Text} (h : t.lastLineLength? = none) : t.countNewlines = 0 :=
  List.count_eq_zero.mpr (lastLineLength?_eq_none.mp h)

namespace Position

/-- Positions after texts put one behind the other. -/
theorem after_append (p : Position) (s t : Text) : p.after (s ++ t) = (p.after s).after t := by
  unfold after
  rw [lastLineLength?_append, countNewlines_append, List.length_append]
  cases hs : s.lastLineLength? with
  | some m =>
    cases ht : t.lastLineLength? with
    | some n => simp [Nat.add_assoc]
    | none => simp [countNewlines_eq_zero ht]
  | none =>
    cases t.lastLineLength? with
    | some n => simp [countNewlines_eq_zero hs]
    | none => simp [Nat.add_assoc]

/-- Without a line feed the line is gone on with. -/
theorem after_of_not_mem {t : Text} (h : CodeUnit.newline ∉ t) (p : Position) :
    p.after t = ⟨p.line, p.column + t.length⟩ := by
  unfold after
  rw [lastLineLength?_eq_none.mpr h]

/-- Every line feed starts a line. -/
theorem line_after (p : Position) (t : Text) : (p.after t).line = p.line + t.countNewlines := by
  unfold after
  cases h : t.lastLineLength? with
  | some n => rfl
  | none => rw [countNewlines_eq_zero h, Nat.add_zero]

end Position

/-- The position just after a text that stands at the start. -/
def stop (t : Text) : Position := Position.after ⟨0, 0⟩ t

theorem stop_append (s t : Text) : stop (s ++ t) = s.stop.after t :=
  Position.after_append ⟨0, 0⟩ s t

theorem stop_line (t : Text) : t.stop.line = t.countNewlines := by
  rw [stop, Position.line_after, Nat.zero_add]

/-- The position after a text, by the lines and columns of the text alone. -/
theorem Position.after_eq (p : Position) (t : Text) :
    p.after t =
      ⟨t.stop.line + p.line, t.stop.column + if t.stop.line = 0 then p.column else 0⟩ := by
  rw [stop_line]
  unfold stop Position.after
  cases h : t.lastLineLength? with
  | none =>
    rw [if_pos (countNewlines_eq_zero h), countNewlines_eq_zero h]
    simp [Nat.add_comm]
  | some n =>
    have hne : t.countNewlines ≠ 0 := by
      intro hzero
      rw [lastLineLength?_eq_none.mpr (List.count_eq_zero.mp hzero)] at h
      cases h
    rw [if_neg hne]
    simp [Nat.add_comm]

/-- A line starts at the end of a text that is empty or ends with a line feed. -/
theorem stop_column_eq_zero {t : Text} :
    t.stop.column = 0 ↔ t = [] ∨ t.getLast? = some CodeUnit.newline := by
  induction t using List.reverseRecOn with
  | nil => simp [stop, Position.after, lastLineLength?]
  | append_singleton t u _ =>
    rw [List.getLast?_concat, stop_append]
    by_cases hu : u = CodeUnit.newline
    · simp [hu, Position.after, lastLineLength?]
    · rw [Position.after_of_not_mem (by simpa [eq_comm] using hu)]
      simp [hu]

/-! ## Positions of offsets -/

/-- The lines that start behind a part of a text. -/
theorem lineOffsets_append (s t : Text) :
    lineOffsets (s ++ t) = lineOffsets s ++ lineOffsetsAfter s.length t := by
  rw [lineOffsets, lineOffsetsAfter_append, Nat.zero_add]
  rfl

/-- A unit starts a line if it is a line feed. -/
theorem lineOffsets_append_singleton (t : Text) (u : CodeUnit) :
    lineOffsets (t ++ [u]) =
      lineOffsets t ++ if u = CodeUnit.newline then [t.length + 1] else [] := by
  rw [lineOffsets_append]
  unfold lineOffsetsAfter
  split <;> rfl

theorem stop_append_newline (t : Text) :
    stop (t ++ [CodeUnit.newline]) = ⟨t.countNewlines + 1, 0⟩ := by
  rw [stop_append, ← stop_line]
  simp [Position.after, lastLineLength?, countNewlines]

/-- The last line of a text starts where its last column is counted from. -/
theorem getLast?_lineOffsets (t : Text) :
    t.lineOffsets.getLast? = some (t.length - t.stop.column) ∧ t.stop.column ≤ t.length := by
  induction t using List.reverseRecOn with
  | nil => exact ⟨rfl, Nat.le_refl _⟩
  | append_singleton t u ih =>
    rw [lineOffsets_append_singleton]
    by_cases hu : u = CodeUnit.newline
    · rw [if_pos hu, hu, stop_append_newline]
      simp
    · rw [if_neg hu, List.append_nil, ih.1, stop_append,
        Position.after_of_not_mem (by simpa [eq_comm] using hu), List.length_append]
      exact ⟨congrArg some (by simp), by simp [ih.2]⟩

/-- The position of an offset, by the text before it. -/
theorem positionOf_append (s t : Text) : (s ++ t).positionOf s.length = s.stop := by
  have hpoint : partitionPoint (fun o => decide (o ≤ s.length)) (s ++ t).lineOffsets =
      s.lineOffsets.length := by
    rw [lineOffsets_append]
    -- the lines of `s` start up to its end, and those of `t` behind it
    refine partitionPoint_append _ _ _ (fun o ho => ?_) fun o ho => ?_
    · rcases List.mem_cons.mp ho with rfl | ho
      · exact decide_eq_true (Nat.zero_le _)
      · have := lineOffsetsAfter_bounds ho
        exact decide_eq_true (by omega)
    · have := lineOffsetsAfter_bounds ho
      exact decide_eq_false (by omega)
  obtain ⟨hlast, hcolumn⟩ := getLast?_lineOffsets s
  rw [List.getLast?_eq_getElem?, length_lineOffsets, Nat.add_sub_cancel] at hlast
  have hline : lineOf (s ++ t).lineOffsets s.length = s.countNewlines := by
    rw [lineOf, hpoint, length_lineOffsets, Nat.add_sub_cancel]
  have hstart : (s ++ t).lineOffsets.getD s.countNewlines 0 = s.length - s.stop.column := by
    have hlt : s.countNewlines < s.lineOffsets.length := by
      rw [length_lineOffsets]
      omega
    rw [List.getD_eq_getElem?_getD, lineOffsets_append, List.getElem?_append_left hlt, hlast]
    rfl
  unfold positionOf
  simp only [hline, hstart]
  rw [Position.ext_iff']
  exact ⟨(stop_line s).symm, Nat.sub_sub_self hcolumn⟩

/-- The position of an offset, by the text before it. -/
theorem positionOf_eq_stop {t : Text} {offset : Nat} (h : offset ≤ t.length) :
    t.positionOf offset = stop (t.take offset) := by
  have hpos := positionOf_append (t.take offset) (t.drop offset)
  rwa [List.take_append_drop, List.length_take, Nat.min_eq_left h] at hpos

/-- No offset has a line or a column beyond it. -/
theorem positionOf_le {t : Text} {offset : Nat} (h : offset ≤ t.length) :
    (t.positionOf offset).line ≤ offset ∧ (t.positionOf offset).column ≤ offset := by
  have hlength : (t.take offset).length = offset := by rw [List.length_take, Nat.min_eq_left h]
  have hline : countNewlines (t.take offset) ≤ (t.take offset).length := List.count_le_length
  have hcolumn := (getLast?_lineOffsets (t.take offset)).2
  rw [positionOf_eq_stop h, stop_line]
  omega

/-- The position of a later offset, by the text in between. -/
theorem positionOf_eq_after {t : Text} {a b : Nat} (hab : a ≤ b) (hb : b ≤ t.length) :
    t.positionOf b = (t.positionOf a).after ((t.take b).drop a) := by
  have hsplit : t.take b = t.take a ++ (t.take b).drop a := by
    have h := (List.take_append_drop a (t.take b)).symm
    rwa [List.take_take, Nat.min_eq_left hab] at h
  rw [positionOf_eq_stop hb, positionOf_eq_stop (Nat.le_trans hab hb), ← stop_append, ← hsplit]

/-! ## Offsets on one line -/

/-- Whether no line feed stands between two offsets, of which the first is not behind the second. -/
def onLine (t : Text) (a b : Nat) : Bool :=
  decide (a ≤ b) && !((t.take b).drop a).contains CodeUnit.newline

theorem onLine_iff {t : Text} {a b : Nat} :
    t.onLine a b = true ↔ a ≤ b ∧ CodeUnit.newline ∉ (t.take b).drop a := by
  simp [onLine]

theorem onLine_eq_false_of_lt {t : Text} {a b : Nat} (h : b < a) : t.onLine a b = false := by
  rw [onLine, decide_eq_false (Nat.not_le_of_lt h), Bool.false_and]

/-- The last line of a text is gone on with up to the first line feed behind it. -/
theorem onLine_append_left {t u after : Text} {a b : Nat} (ha : a ≤ t.length) (hb : b ≤ u.length) :
    onLine (t ++ u ++ after) a (t.length + b) = (t.onLine a t.length && u.onLine 0 b) := by
  have hpart : ((t ++ u ++ after).take (t.length + b)).drop a = t.drop a ++ u.take b := by
    rw [List.append_assoc, List.take_length_add_append, List.take_append_of_le_length hb,
      List.drop_append_of_le_length ha]
  rw [Bool.eq_iff_iff, Bool.and_eq_true, onLine_iff, onLine_iff, onLine_iff, hpart,
    List.take_length, List.drop_zero, List.mem_append, not_or]
  have hle : a ≤ t.length + b := Nat.le_add_right_of_le ha
  simp [hle, ha]

/-- Lines within a part are lines within the whole. -/
theorem onLine_append {before t after : Text} {a b : Nat} (hb : b ≤ t.length) :
    onLine (before ++ t ++ after) (before.length + a) (before.length + b) = t.onLine a b := by
  rw [Bool.eq_iff_iff, onLine_iff, onLine_iff]
  have hpart : ((before ++ t ++ after).take (before.length + b)).drop (before.length + a) =
      (t.take b).drop a := by
    rw [List.append_assoc, List.take_length_add_append, List.drop_length_add_append,
      List.take_append_of_le_length hb]
  rw [hpart, Nat.add_le_add_iff_left]

/-- Along a line columns grow with offsets. -/
theorem positionOf_of_onLine {t : Text} {a b : Nat} (h : t.onLine a b = true)
    (hb : b ≤ t.length) :
    t.positionOf b = ⟨(t.positionOf a).line, (t.positionOf a).column + (b - a)⟩ := by
  obtain ⟨hab, hno⟩ := onLine_iff.mp h
  rw [positionOf_eq_after hab hb, Position.after_of_not_mem hno, List.length_drop,
    List.length_take, Nat.min_eq_left hb]

/-- Behind a line feed lines are greater. -/
theorem line_lt_of_not_onLine {t : Text} {a b : Nat} (h : t.onLine a b = false) (hab : a ≤ b)
    (hb : b ≤ t.length) : (t.positionOf a).line < (t.positionOf b).line := by
  have hmem : CodeUnit.newline ∈ (t.take b).drop a := by
    by_contra hno
    rw [onLine_iff.mpr ⟨hab, hno⟩] at h
    cases h
  have hcount : 0 < countNewlines ((t.take b).drop a) := List.count_pos_iff.mpr hmem
  rw [positionOf_eq_after hab hb, Position.line_after]
  omega

/-- Positions grow with offsets. -/
theorem positionOf_lt {t : Text} {a b : Nat} (hab : a < b) (hb : b ≤ t.length) :
    (t.positionOf a).line < (t.positionOf b).line ∨
      ((t.positionOf a).line = (t.positionOf b).line ∧
        (t.positionOf a).column < (t.positionOf b).column) := by
  cases h : t.onLine a b with
  | true =>
    rw [positionOf_of_onLine h hb]
    exact Or.inr ⟨rfl, Nat.lt_add_of_pos_right (by omega)⟩
  | false => exact Or.inl (line_lt_of_not_onLine h (Nat.le_of_lt hab) hb)

/-- The position of an offset covers that of another if no line feed stands between them. -/
theorem covers_positionOf {t : Text} {a b : Nat} (ha : a ≤ t.length) (hb : b ≤ t.length) :
    (t.positionOf a).covers (t.positionOf b) = t.onLine a b := by
  rw [Bool.eq_iff_iff, Position.covers_iff]
  constructor
  · rintro ⟨hline, hcolumn⟩
    cases h : t.onLine a b with
    | true => rfl
    | false =>
      by_cases hab : a ≤ b
      · have := line_lt_of_not_onLine h hab hb
        omega
      · cases hba : t.onLine b a with
        | true =>
          rw [positionOf_of_onLine hba ha] at hcolumn
          simp only at hcolumn
          omega
        | false =>
          have := line_lt_of_not_onLine hba (by omega) ha
          omega
  · intro h
    rw [positionOf_of_onLine h hb]
    exact ⟨rfl, by simp⟩

/-! ## Offsets of positions -/

/-- What stands behind an offset does not matter for its position. -/
theorem positionOf_append_left {s : Text} {offset : Nat} (h : offset ≤ s.length) (t : Text) :
    (s ++ t).positionOf offset = s.positionOf offset := by
  have h' : offset ≤ (s ++ t).length := by
    rw [List.length_append]
    omega
  rw [positionOf_eq_stop h, positionOf_eq_stop h', List.take_append_of_le_length h]

/-- A line starts at its first column. -/
theorem positionOf_lineStart {t : Text} {line start : Nat}
    (h : t.lineOffsets[line]? = some start) :
    start ≤ t.length ∧ t.positionOf start = ⟨line, 0⟩ := by
  induction t using List.reverseRecOn with
  | nil =>
    cases line with
    | zero =>
      obtain rfl : 0 = start := by simpa [lineOffsets] using h
      exact ⟨Nat.le_refl _, positionOf_eq_stop (Nat.le_refl _)⟩
    | succ line => simp [lineOffsets, lineOffsetsAfter] at h
  | append_singleton t u ih =>
    rw [lineOffsets_append_singleton] at h
    by_cases hline : line < (lineOffsets t).length
    · rw [List.getElem?_append_left hline] at h
      obtain ⟨hle, hpos⟩ := ih h
      exact ⟨by simp; omega, by rw [positionOf_append_left hle, hpos]⟩
    · rw [List.getElem?_append_right (by omega)] at h
      split at h
      · rename_i hu
        obtain ⟨hzero, rfl⟩ : line - (lineOffsets t).length = 0 ∧ t.length + 1 = start := by
          rw [List.getElem?_singleton] at h
          split at h
          · exact ⟨by omega, Option.some.inj h⟩
          · cases h
        have hpos := positionOf_append (t ++ [u]) []
        rw [List.append_nil, List.length_append, List.length_singleton, hu,
          stop_append_newline] at hpos
        rw [length_lineOffsets] at hzero hline
        refine ⟨by simp, ?_⟩
        rw [hu, hpos]
        exact congrArg (Position.mk · 0) (by omega)
      · simp at h

/-- A line goes up to the next line feed. -/
theorem onLine_iff_le_lineEnd {t : Text} {line start offset : Nat}
    (h : t.lineOffsets[line]? = some start) (hle : start ≤ offset) (hlen : offset ≤ t.length) :
    t.onLine start offset = true ↔ offset ≤ t.lineEnd line := by
  obtain ⟨hstart, hpos⟩ := positionOf_lineStart h
  -- the text is cut at the start of the line and at the offset
  obtain ⟨s, x, y, rfl, rfl, rfl⟩ : ∃ s x y : Text, t = s ++ (x ++ y) ∧ start = s.length ∧
      offset = s.length + x.length := by
    refine ⟨t.take start, (t.take offset).drop start, t.drop offset, ?_, ?_, ?_⟩
    · have hcut := List.take_append_drop start (t.take offset)
      rw [List.take_take, Nat.min_eq_left hle] at hcut
      rw [← List.append_assoc, hcut, List.take_append_drop]
    · rw [List.length_take, Nat.min_eq_left hstart]
    · rw [List.length_drop, List.length_take, List.length_take, Nat.min_eq_left hstart,
        Nat.min_eq_left hlen]
      omega
  rw [positionOf_append] at hpos
  have hcount : s.countNewlines = line := by rw [← stop_line, hpos]
  have hnext : (lineOffsets (s ++ (x ++ y)))[line + 1]? =
      (lineOffsetsAfter s.length x ++ lineOffsetsAfter (s.length + x.length) y)[0]? := by
    rw [lineOffsets_append, lineOffsetsAfter_append,
      List.getElem?_append_right (by rw [length_lineOffsets]; omega), length_lineOffsets, hcount,
      Nat.sub_self]
  have hmiddle : ((s ++ (x ++ y)).take (s.length + x.length)).drop s.length = x := by
    simp [List.take_append]
  rw [onLine_iff, hmiddle, lineEnd, hnext]
  by_cases hx : CodeUnit.newline ∈ x
  · have hpositive : 0 < (lineOffsetsAfter s.length x).length := by
      rw [length_lineOffsetsAfter]
      exact List.count_pos_iff.mpr hx
    have hbounds := lineOffsetsAfter_bounds (List.getElem_mem hpositive)
    rw [List.getElem?_append_left hpositive, List.getElem?_eq_getElem hpositive]
    simp only [hx, not_true_eq_false, and_false, false_iff]
    omega
  · have hempty : lineOffsetsAfter s.length x = [] := by
      rw [← List.length_eq_zero_iff, length_lineOffsetsAfter]
      exact List.count_eq_zero.mpr hx
    rw [hempty, List.nil_append]
    simp only [hx, not_false_eq_true, and_true, hle, true_iff]
    split
    · rename_i next hy
      have := lineOffsetsAfter_bounds (List.mem_of_getElem? hy)
      omega
    · exact hlen

/-- The offset of a position inside a line. -/
theorem positionOf_of_le_lineEnd {t : Text} {line start column : Nat}
    (h : t.lineOffsets[line]? = some start) (hle : start + column ≤ t.lineEnd line) :
    t.positionOf (start + column) = ⟨line, column⟩ := by
  have hlen : start + column ≤ t.length := Nat.le_trans hle (lineEnd_le_length t line)
  have hon := (onLine_iff_le_lineEnd h (Nat.le_add_right start column) hlen).mpr hle
  rw [positionOf_of_onLine hon hlen, (positionOf_lineStart h).2]
  exact congrArg (Position.mk line) (by simp)

/-- The line of an offset, and its end. -/
theorem exists_lineStart {t : Text} {offset : Nat} (h : offset ≤ t.length) :
    ∃ start, t.lineOffsets[(t.positionOf offset).line]? = some start ∧
      start + (t.positionOf offset).column = offset ∧
      offset ≤ t.lineEnd (t.positionOf offset).line := by
  have hpos := positionOf_eq_stop h
  obtain ⟨hlast, hcolumn⟩ := getLast?_lineOffsets (t.take offset)
  rw [List.length_take, Nat.min_eq_left h] at hlast hcolumn
  have hstart : t.lineOffsets[(t.positionOf offset).line]? =
      some (offset - (t.positionOf offset).column) := by
    rw [List.getLast?_eq_getElem?, length_lineOffsets, Nat.add_sub_cancel] at hlast
    have hlt : countNewlines (t.take offset) < (lineOffsets (t.take offset)).length := by
      rw [length_lineOffsets]
      omega
    have hsplit := lineOffsets_append (t.take offset) (t.drop offset)
    rw [List.take_append_drop] at hsplit
    rw [hpos, stop_line, hsplit, List.getElem?_append_left hlt, hlast]
  have hcolumn : (t.positionOf offset).column ≤ offset := by rwa [hpos]
  refine ⟨_, hstart, by omega, ?_⟩
  rw [← onLine_iff_le_lineEnd hstart (by omega) h, ← covers_positionOf (by omega) h,
    (positionOf_lineStart hstart).2]
  exact Position.covers_iff.mpr ⟨rfl, Nat.zero_le _⟩

/-- The position of an offset has that offset. -/
theorem offsetOf?_positionOf {t : Text} {offset : Nat} (h : offset ≤ t.length) :
    t.offsetOf? (t.positionOf offset) = some offset := by
  obtain ⟨start, hstart, hsum, hend⟩ := exists_lineStart h
  rw [offsetOf?, hstart, Option.map_some, hsum, Nat.min_eq_left hend]

end Provenance.Text
