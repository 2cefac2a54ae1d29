/-
# What an excerpt shows

The place of an offset is the line that it is on and its column there.  The excerpt around an offset
shows its place, with a caret under it and under a second offset that follows on the line.  Line starts
that are kept from one excerpt to the next make no difference.

The main facts:

* `of_eq`, `secondMark_of` : an excerpt by the positions of its offsets;
* `mark_eq_sub` : the mark is a rounded difference;
* `getElem?_caretLine_iff` : a caret stands under each mark and nowhere else;
* `of_shows` : what the excerpt around an offset shows;
* `existsUnique_offset` : each place is that of one offset;
* `runAll_of_faithful` : line starts that are kept do not show;
* `offsets_match_places` : in every run, excerpts match offsets with places.
-/
import Provenance.Proofs.Mapping.Encode
import Provenance.Proofs.Text.Lines
import Provenance.Text.LineMemory

namespace Provenance

open Text

namespace Excerpt

/-! ## By positions -/

section Positions

variable {t : Text} {pos p : Nat}

/-- Offsets are compared with line starts alike as naturals and as numbers. -/
theorem lineOf_map_natCast (starts : List Nat) (pos : Nat) :
    lineOf (starts.map fun s : Nat => (s : Number)) (pos : Number) = lineOf starts pos := by
  unfold lineOf
  rw [partitionPoint_map]
  intro s _
  rw [decide_eq_decide]
  exact Number.natCast_le

/-- An excerpt by the position of its offset. -/
theorem of_eq {start : Nat} (hstart : t.lineOffsets[(t.positionOf pos).line]? = some start)
    (h : pos ≤ t.length) (second : Option Number) :
    Excerpt.of t pos second =
      { line := (t.take (t.lineEnd (t.positionOf pos).line)).drop start
        number := (t.positionOf pos).line + 1
        mark := ((t.positionOf pos).column : Number)
        secondMark := second.bind fun p =>
          if (start : Number) ≤ p ∧ p ≤ (t.lineEnd (t.positionOf pos).line : Number) then
            some (p.moved (-start))
          else none } := by
  have hsum := start_add_column hstart h
  have hgetD : t.lineOffsets.getD (t.positionOf pos).line 0 = start := by
    rw [List.getD_eq_getElem?_getD, hstart, Option.getD_some]
  have hmark : (pos : Number).moved (-start) = ((t.positionOf pos).column : Number) := by
    rw [Number.moved_neg_natCast (by omega)]
    exact Number.natCast_inj.mpr (by omega)
  have hline : lineOf t.lineOffsets pos = (t.positionOf pos).line := rfl
  unfold Excerpt.of
  simp only [lineOf_map_natCast, hline, hgetD, hmark]

/-- In a text of up to 2^53 units the mark is the rounded distance from the start of the line. -/
theorem mark_eq_sub {start : Nat} (hstart : t.lineOffsets[(t.positionOf pos).line]? = some start)
    (hpos : pos ≤ t.length) (ht : t.length ≤ Number.exactLimit) (second : Option Number) :
    (Excerpt.of t pos second).mark = (pos : Number) - (start : Number) := by
  have hsum := start_add_column hstart hpos
  rw [of_eq hstart hpos, Number.natCast_sub_of_le (by omega) (by omega)]
  exact Number.natCast_inj.mpr (by omega)

/-- A second offset is marked if it is on the line of the first, and then at its own column. -/
theorem secondMark_of (hpos : pos ≤ t.length) (hp : p ≤ t.length) :
    (Excerpt.of t pos (some (p : Number))).secondMark =
      if (t.positionOf p).line = (t.positionOf pos).line then
        some ((t.positionOf p).column : Number)
      else none := by
  obtain ⟨start, hstart, -, -⟩ := exists_lineStart hpos
  rw [of_eq hstart hpos]
  simp only [Option.bind_some, Number.natCast_le, ← line_positionOf_iff hstart hp]
  split
  · rename_i hline
    have hsum := start_add_column (hline ▸ hstart) hp
    rw [Number.moved_neg_natCast (by omega)]
    exact congrArg some (Number.natCast_inj.mpr (by omega))
  · rfl

end Positions

/-! ## Carets -/

section Carets

variable {e : Excerpt} {c : Nat} {m : Option Nat}

/-- The second mark has a caret of its own if it lies behind the first. -/
theorem mem_marks_iff {x : Number} :
    x ∈ e.marks ↔ x = e.mark ∨ ∃ y ∈ e.secondMark, e.mark < y ∧ x = y := by
  unfold marks
  cases e.secondMark with
  | none => simp
  | some y =>
    simp only [Option.mem_def, Option.some_inj, exists_eq_left']
    split
    · rename_i h
      simp [h]
    · rename_i h
      simp [h]

/-- The carets reach up to the greater mark. -/
theorem caretCount_eq (hmark : e.mark = (c : Number))
    (hsecond : e.secondMark = m.map fun n : Nat => (n : Number)) :
    e.caretCount = max c (m.getD c) + 1 := by
  have hcount : ∀ n : Nat, ((n : Number).moved 1).toCount = n + 1 := by
    intro n
    rw [← Int.natCast_one, Number.moved_natCast, Number.toCount_natCast]
  unfold caretCount marks
  rw [hmark, hsecond]
  cases m with
  | none =>
    rw [Option.getD_none, Nat.max_self]
    exact hcount c
  | some n =>
    simp only [Option.map_some, Number.natCast_lt, Option.getD_some]
    split
    · rename_i h
      rw [Nat.max_eq_right (Nat.le_of_lt h)]
      exact hcount n
    · rename_i h
      rw [Nat.max_eq_left (Nat.le_of_not_lt h)]
      exact hcount c

/-- An excerpt whose marks are on its line is shown, unless the line is too long with its number. -/
theorem context?_eq (hmark : e.mark = (c : Number))
    (hsecond : e.secondMark = m.map fun n : Nat => (n : Number)) (hc : c ≤ e.line.length)
    (hm : ∀ n ∈ m, n ≤ e.line.length) :
    e.context? =
      if e.heading.length ≤ Text.maxLength then .ok (e.heading, e.caretLine) else .error .text := by
  have hcount : e.caretCount ≤ e.line.length + 1 := by
    rw [caretCount_eq hmark hsecond]
    cases m with
    | none =>
      rw [Option.getD_none, Nat.max_self]
      exact Nat.succ_le_succ hc
    | some n => exact Nat.succ_le_succ (Nat.max_le.mpr ⟨hc, hm n rfl⟩)
  have hheading : e.line.length + 1 ≤ e.heading.length := by
    have hgap : ("  Ln " : Text).length = 5 := by decide
    rw [heading, List.length_append, List.length_append, hgap]
    omega
  have hcarets : Text.maxLength ≤ maxCarets := by decide
  unfold context?
  split
  · rw [if_neg (by omega)]
  · rw [if_neg (by omega), if_neg (by omega), if_pos (by omega)]
    rfl

/-- Every mark is reached. -/
theorem lt_caretCount_of_mem (hmark : e.mark = (c : Number))
    (hsecond : e.secondMark = m.map fun n : Nat => (n : Number)) {column : Nat}
    (h : (column : Number) ∈ e.marks) : column < e.caretCount := by
  rw [caretCount_eq hmark hsecond]
  rcases mem_marks_iff.mp h with h | ⟨y, hy, -, h⟩
  · rw [hmark, Number.natCast_inj] at h
    omega
  · rw [hsecond, Option.mem_def, Option.map_eq_some_iff] at hy
    obtain ⟨n, rfl, rfl⟩ := hy
    rw [Number.natCast_inj] at h
    rw [Option.getD_some]
    omega

/-- **A caret stands under each mark and nowhere else.** -/
theorem getElem?_caretLine_iff (hmark : e.mark = (c : Number))
    (hsecond : e.secondMark = m.map fun n : Nat => (n : Number)) (column : Nat) :
    e.caretLine[column]? = some (CodeUnit.ofChar '^') ↔ (column : Number) ∈ e.marks := by
  have hne : CodeUnit.ofChar ' ' ≠ CodeUnit.ofChar '^' := by decide
  unfold caretLine
  rw [List.getElem?_map]
  by_cases hlt : column < e.caretCount
  · rw [List.getElem?_range hlt, Option.map_some, Option.some_inj]
    split
    · rename_i h
      simp [h]
    · rename_i h
      simp [h, hne]
  · rw [List.getElem?_eq_none (by simpa using hlt)]
    simp only [Option.map_none, reduceCtorEq, false_iff]
    exact fun h => hlt (lt_caretCount_of_mem hmark hsecond h)

/-- Where no caret stands the line is blank. -/
theorem eq_of_mem_caretLine {u : CodeUnit} (h : u ∈ e.caretLine) :
    u = CodeUnit.ofChar '^' ∨ u = CodeUnit.ofChar ' ' := by
  obtain ⟨i, -, rfl⟩ := List.mem_map.mp h
  split
  · exact Or.inl rfl
  · exact Or.inr rfl

end Carets

/-! ## Places -/

/-- A number is the column of an offset on a line that starts at `start`; the line's end has a column
as well. -/
def IsColumn (line : Text) (start offset : Nat) (x : Number) : Prop :=
  ∃ column : Nat, start + column = offset ∧ column ≤ line.length ∧ x = (column : Number)

/-- What an excerpt shows of an offset of a text, and of a second one. -/
structure Shows (e : Excerpt) (t : Text) (start pos : Nat) (second : Option Nat) : Prop where
  /-- The line starts where the last line up to the offset does. -/
  starts : t.lineOffsets[countNewlines (t.take pos)]? = some start
  /-- Lines are counted from 1. -/
  number : e.number = countNewlines (t.take pos) + 1
  line : t.lines[countNewlines (t.take pos)]? = some e.line
  stands : e.line <+: t.drop start
  unbroken : CodeUnit.newline ∉ e.line
  mark : IsColumn e.line start pos e.mark
  /-- A second offset is marked if it is on the line of the first. -/
  secondMark : ∀ x, e.secondMark = some x ↔
    ∃ p ∈ second, countNewlines (t.take p) = countNewlines (t.take pos) ∧ IsColumn e.line start p x
  /-- A second mark has a caret if it lies behind the first. -/
  carets : ∀ column : Nat, e.caretLine[column]? = some (CodeUnit.ofChar '^') ↔
    (column : Number) = e.mark ∨ ∃ x ∈ e.secondMark, e.mark < x ∧ (column : Number) = x
  blanks : ∀ u ∈ e.caretLine, u = CodeUnit.ofChar '^' ∨ u = CodeUnit.ofChar ' '
  /-- The line and the carets are shown, unless the line is too long with its number. -/
  shown : e.context? =
    if e.heading.length ≤ Text.maxLength then .ok (e.heading, e.caretLine) else .error .text

section Places

variable {t : Text} {pos p start index column : Nat} {second : Option Nat} {line : Text}

/-- An offset has a column on a line if its position is on the line. -/
theorem isColumn_iff (hstart : t.lineOffsets[index]? = some start) (hp : p ≤ t.length) {x : Number} :
    IsColumn ((t.take (t.lineEnd index)).drop start) start p x ↔
      (t.positionOf p).line = index ∧ x = ((t.positionOf p).column : Number) := by
  have hlength := length_take_lineEnd hstart
  constructor
  · rintro ⟨column, rfl, hcolumn, rfl⟩
    rw [positionOf_of_le_lineEnd hstart (by omega)]
    exact ⟨rfl, rfl⟩
  · rintro ⟨hline, rfl⟩
    have hend := ((line_positionOf_iff hstart hp).mp hline).2
    have hsum := start_add_column (hline ▸ hstart) hp
    exact ⟨_, hsum, by omega, rfl⟩

/-- The second offset as far as it is on the line of the first. -/
def onLineOf (t : Text) (pos : Nat) (second : Option Nat) : Option Nat :=
  second.filter fun p => (t.positionOf p).line = (t.positionOf pos).line

theorem mem_onLineOf_iff : p ∈ onLineOf t pos second ↔
    p ∈ second ∧ (t.positionOf p).line = (t.positionOf pos).line := by
  simp [onLineOf, Option.filter_eq_some_iff]

/-- A second offset is marked at its column as far as it is on the line of the first. -/
theorem secondMark_of_map (hpos : pos ≤ t.length) (hsecond : ∀ p ∈ second, p ≤ t.length) :
    (Excerpt.of t pos (second.map fun p : Nat => (p : Number))).secondMark =
      ((onLineOf t pos second).map fun p => (t.positionOf p).column).map
        fun n : Nat => (n : Number) := by
  cases second with
  | none => rfl
  | some p =>
    rw [Option.map_some, secondMark_of hpos (hsecond p rfl), onLineOf, Option.filter_some]
    by_cases hsame : (t.positionOf p).line = (t.positionOf pos).line
    · rw [if_pos hsame, if_pos (decide_eq_true hsame)]
      rfl
    · rw [if_neg hsame, if_neg (by simpa using hsame)]
      rfl

/-- **The excerpt around an offset** shows its place. -/
theorem of_shows (hpos : pos ≤ t.length) (hsecond : ∀ p ∈ second, p ≤ t.length) :
    ∃ start, (Excerpt.of t pos (second.map fun p : Nat => (p : Number))).Shows t start pos
      second := by
  obtain ⟨start, hstart, -, -⟩ := exists_lineStart hpos
  have heq := of_eq hstart hpos (second.map fun p : Nat => (p : Number))
  have hmarks := secondMark_of_map hpos hsecond
  generalize Excerpt.of t pos (second.map fun p : Nat => (p : Number)) = e at heq hmarks ⊢
  have hline : e.line = (t.take (t.lineEnd (t.positionOf pos).line)).drop start := by rw [heq]
  have hmark : e.mark = ((t.positionOf pos).column : Number) := by rw [heq]
  have hcount : ∀ p, p ≤ t.length → countNewlines (t.take p) = (t.positionOf p).line :=
    fun p hp => (line_positionOf hp).symm
  have hcolumn : ∀ p, p ≤ t.length → (t.positionOf p).line = (t.positionOf pos).line →
      (t.positionOf p).column ≤ e.line.length := by
    intro p hp hsame
    obtain ⟨column, -, hle, heq⟩ := (isColumn_iff hstart hp).mpr ⟨hsame, rfl⟩
    rw [hline, Number.natCast_inj.mp heq]
    exact hle
  refine ⟨start, ?starts, ?number, ?line, ?stands, ?unbroken, ?mark, ?secondMark, ?carets,
    fun u => eq_of_mem_caretLine, ?shown⟩
  case starts => rw [hcount pos hpos, hstart]
  case number => rw [hcount pos hpos, heq]
  case line => rw [hcount pos hpos, getElem?_lines hstart, hline]
  case stands =>
    rw [hline, List.drop_take]
    exact List.take_prefix _ _
  case unbroken =>
    rw [hline]
    exact (not_mem_line hstart).2
  case mark =>
    rw [hline]
    exact (isColumn_iff hstart hpos).mpr ⟨rfl, hmark⟩
  case secondMark =>
    intro x
    rw [hmarks, hline, Option.map_map, Option.map_eq_some_iff]
    constructor
    · rintro ⟨p, hp, rfl⟩
      obtain ⟨hp, hsame⟩ := mem_onLineOf_iff.mp hp
      have hle := hsecond p hp
      exact ⟨p, hp, by rw [hcount p hle, hcount pos hpos, hsame],
        (isColumn_iff hstart hle).mpr ⟨hsame, rfl⟩⟩
    · rintro ⟨p, hp, -, hx⟩
      obtain ⟨hsame, rfl⟩ := (isColumn_iff hstart (hsecond p hp)).mp hx
      exact ⟨p, mem_onLineOf_iff.mpr ⟨hp, hsame⟩, rfl⟩
  case carets =>
    intro column
    rw [getElem?_caretLine_iff hmark hmarks, mem_marks_iff]
  case shown =>
    refine context?_eq hmark hmarks (hcolumn pos hpos rfl) fun n hn => ?_
    obtain ⟨p, hp, rfl⟩ := Option.map_eq_some_iff.mp hn
    obtain ⟨hp, hsame⟩ := mem_onLineOf_iff.mp hp
    exact hcolumn p (hsecond p hp) hsame

/-- An excerpt shows the position of its offset. -/
theorem place_of_iff (hpos : pos ≤ t.length) :
    ((Excerpt.of t pos).number = index + 1 ∧ (Excerpt.of t pos).mark = (column : Number)) ↔
      t.positionOf pos = ⟨index, column⟩ := by
  obtain ⟨start, hstart, -, -⟩ := exists_lineStart hpos
  rw [of_eq hstart hpos, Position.ext_iff', Number.natCast_inj, Nat.add_right_cancel_iff]

/-- **Each place** is that of one offset. -/
theorem existsUnique_offset (hline : t.lines[index]? = some line) (hcolumn : column ≤ line.length) :
    ∃! pos : Nat, pos ≤ t.length ∧ (Excerpt.of t pos).number = index + 1 ∧
      (Excerpt.of t pos).mark = (column : Number) := by
  obtain ⟨pos, ⟨hpos, hposition⟩, hunique⟩ := existsUnique_positionOf hline hcolumn
  exact ⟨pos, ⟨hpos, (place_of_iff hpos).mpr hposition⟩, fun other ⟨hother, hplace⟩ =>
    hunique other ⟨hother, (place_of_iff hother).mp hplace⟩⟩

end Places

end Excerpt

/-! ## Line starts that are kept -/

/-- The line starts kept under a text are its own. -/
def LineMemory.Faithful (memory : LineMemory) : Prop :=
  ∀ t starts, memory.lookup t = some starts → starts = t.lineOffsets

variable {memory : LineMemory}

/-- Faithful memory gives the line starts of a text and stays faithful. -/
theorem LineMemory.startsOf_of_faithful (h : memory.Faithful) (t : Text) :
    (memory.startsOf t).1 = t.lineOffsets ∧ (memory.startsOf t).2.Faithful := by
  unfold startsOf
  cases hfound : memory.lookup t with
  | some starts => exact ⟨h t starts hfound, h⟩
  | none =>
    refine ⟨rfl, fun u starts hu => ?_⟩
    rw [List.lookup_append, Option.or_eq_some_iff] at hu
    rcases hu with hu | ⟨-, hu⟩
    · exact h u starts hu
    · obtain ⟨rfl, rfl⟩ := Prod.mk.inj (List.mem_singleton.mp (mem_of_lookup hu))
      rfl

namespace ExcerptRequest

/-- The excerpt that is asked for. -/
def excerpt (r : ExcerptRequest) : Excerpt := Excerpt.of r.text r.pos r.second

/-- With faithful memory a request is answered as without, and memory stays faithful. -/
theorem run_of_faithful (h : memory.Faithful) (r : ExcerptRequest) :
    (r.run memory).1 = r.excerpt ∧ (r.run memory).2.Faithful := by
  obtain ⟨hstarts, hkept⟩ := LineMemory.startsOf_of_faithful h r.text
  refine ⟨?_, hkept⟩
  show Excerpt.within (memory.startsOf r.text).1 r.text r.pos r.second = r.excerpt
  rw [hstarts, Excerpt.within_lineOffsets]
  rfl

/-- **Line starts that are kept** do not show. -/
theorem runAll_of_faithful (h : memory.Faithful) (rs : List ExcerptRequest) :
    (runAll memory rs).1 = rs.map excerpt := by
  induction rs generalizing memory with
  | nil => rfl
  | cons r rest ih =>
    obtain ⟨hanswer, hkept⟩ := run_of_faithful h r
    show (r.run memory).1 :: (runAll (r.run memory).2 rest).1 = _
    rw [hanswer, ih hkept, List.map_cons]

end ExcerptRequest

/-! ## Every excerpt of a text -/

/-- **Offsets match places.**  Excerpts are the same whatever excerpts have been taken before.  Binary
search over the line starts gives every offset of a text, the text's end included, a line by the number
of line feeds before the offset, and the excerpt around the offset shows that line and the offset's
column on it.  It marks a second offset if that is on the same line, and has carets under the first
offset, under a second one behind it, and nowhere else.  A line has a place for each of its units and one
for its end, and each place is that of exactly one offset. -/
theorem Excerpt.offsets_match_places (t : Text) :
    (∀ rs, (ExcerptRequest.runAll [] rs).1 = rs.map ExcerptRequest.excerpt) ∧
    (∀ (pos : Nat) (second : Option Nat), pos ≤ t.length → (∀ p ∈ second, p ≤ t.length) →
      lineOf t.lineOffsets pos = countNewlines (t.take pos) ∧
        ∃ start, (Excerpt.of t pos (second.map fun p : Nat => (p : Number))).Shows t start pos
          second) ∧
    t.lines.length = t.lineOffsets.length ∧
    ∀ (index column : Nat) (line : Text), t.lines[index]? = some line → column ≤ line.length →
      ∃! pos : Nat, pos ≤ t.length ∧ (Excerpt.of t pos).number = index + 1 ∧
        (Excerpt.of t pos).mark = (column : Number) := by
  refine ⟨ExcerptRequest.runAll_of_faithful fun t starts h => ?_, fun pos second hpos hsecond =>
    ⟨line_positionOf hpos, Excerpt.of_shows hpos hsecond⟩, length_lines t,
    fun index column line => Excerpt.existsUnique_offset⟩
  cases h

/-- A second offset at the end of the line, and the only place of an empty line. -/
theorem Excerpt.offsets_match_places_emptyLine :
    let t : Text := "ab\n\ncd"
    1 ≤ t.length ∧ 2 ≤ t.length ∧ t.lines[1]? = some [] ∧
      (∃ start, (Excerpt.of t (1 : Nat) (some (2 : Nat))).Shows t start 1 (some 2)) ∧
      (Excerpt.of t (1 : Nat) (some (2 : Nat))).caretLine = " ^^" ∧
      ∃! pos : Nat, pos ≤ t.length ∧ (Excerpt.of t pos).number = 2 ∧
        (Excerpt.of t pos).mark = (0 : Nat) := by
  intro t
  have hfirst : 1 ≤ t.length := by decide
  have hsecond : 2 ≤ t.length := by decide
  have hline : t.lines[1]? = some [] := by decide
  obtain ⟨-, hshows, -, hplaces⟩ := Excerpt.offsets_match_places t
  refine ⟨hfirst, hsecond, hline, (hshows 1 (some 2) hfirst fun p hp => ?_).2, ?_,
    hplaces 1 0 [] hline (Nat.le_refl 0)⟩
  · rw [← Option.some.inj hp]
    exact hsecond
  · decide +kernel

end Provenance
