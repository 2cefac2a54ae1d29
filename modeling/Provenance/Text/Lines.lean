/-
# Lines of a text

A line feed ends its line and belongs to it.  `lineOffsets` lists the offsets at which lines start,
and `lineOf` finds the line of an offset by binary search.

The main facts:

* `length_lineOffsets` : there is one line more than there are line feeds;
* `lineEnd_le_length` : every line ends inside the text.
-/
import Provenance.Search
import Provenance.Text.Basic

namespace Provenance.Text

/-! ## Starts and ends of lines -/

/-- The offsets just after each line feed of a text whose first unit stands at `pos`. -/
def lineOffsetsAfter (pos : Nat) : Text → List Nat
  | [] => []
  | u :: rest =>
    if u = CodeUnit.newline then (pos + 1) :: lineOffsetsAfter (pos + 1) rest
    else lineOffsetsAfter (pos + 1) rest

/-- The offsets at which the lines of a text start. -/
def lineOffsets (t : Text) : List Nat := 0 :: lineOffsetsAfter 0 t

/-- The index of the last start that is not after `pos`; 0 if all of them are. -/
def lineOf {α : Type} [LE α] [DecidableLE α] (starts : List α) (pos : α) : Nat :=
  partitionPoint (fun s => decide (s ≤ pos)) starts - 1

/-- The offset at which a line ends: before its line feed, or at the end of the text. -/
def lineEnd (t : Text) (index : Nat) : Nat :=
  match t.lineOffsets[index + 1]? with
  | some next => next - 1
  | none => t.length

/-- The number of line feeds. -/
def countNewlines (t : Text) : Nat := t.count CodeUnit.newline

/-- The number of units after the last line feed, if there is one. -/
def lastLineLength? : Text → Option Nat
  | [] => none
  | u :: rest =>
    match lastLineLength? rest with
    | some n => some n
    | none => if u = CodeUnit.newline then some rest.length else none

/-! ## Laws -/

theorem length_lineOffsetsAfter (t : Text) (pos : Nat) :
    (lineOffsetsAfter pos t).length = t.countNewlines := by
  induction t generalizing pos with
  | nil => rfl
  | cons u rest ih =>
    by_cases h : u = CodeUnit.newline
    · simp [lineOffsetsAfter, h, ih, countNewlines]
    · simp [lineOffsetsAfter, h, ih, countNewlines]

/-- There is one line more than there are line feeds. -/
theorem length_lineOffsets (t : Text) : t.lineOffsets.length = t.countNewlines + 1 := by
  simp [lineOffsets, length_lineOffsetsAfter]

/-- Later lines start behind `pos` and inside the text. -/
theorem lineOffsetsAfter_bounds {t : Text} {pos s : Nat} (h : s ∈ lineOffsetsAfter pos t) :
    pos < s ∧ s ≤ pos + t.length := by
  induction t generalizing pos with
  | nil => simp [lineOffsetsAfter] at h
  | cons u rest ih =>
    unfold lineOffsetsAfter at h
    split at h
    · rcases List.mem_cons.mp h with rfl | h
      · simp
      · have := ih h
        simp only [List.length_cons]
        omega
    · have := ih h
      simp only [List.length_cons]
      omega

/-- Every line ends inside the text. -/
theorem lineEnd_le_length (t : Text) (index : Nat) : t.lineEnd index ≤ t.length := by
  unfold lineEnd
  split
  · rename_i next h
    have := lineOffsetsAfter_bounds (List.mem_of_getElem? (by simpa [lineOffsets] using h))
    omega
  · exact Nat.le_refl _

end Provenance.Text
