/-
# Offsets and positions

Every offset of a text has a position, the line it is on and its column there, and every position
inside a line has an offset.

The main facts:

* `offsetOf?_le_length` : offsets of positions lie in the text.
-/
import Provenance.Text.Lines

namespace Provenance.Text

/-- A position in a text. -/
structure Position where
  line : Nat
  column : Nat
  deriving DecidableEq, Repr

/-- The position of an offset. -/
def positionOf (t : Text) (offset : Nat) : Position :=
  let line := lineOf t.lineOffsets offset
  ⟨line, offset - t.lineOffsets.getD line 0⟩

/-- The offset of a position; a column beyond the end of its line stands for that end. -/
def offsetOf? (t : Text) (p : Position) : Option Nat :=
  t.lineOffsets[p.line]?.map fun start => min (start + p.column) (t.lineEnd p.line)

/-- The position just after a text that is put at a position. -/
def Position.after (p : Position) (t : Text) : Position :=
  match t.lastLineLength? with
  | none => ⟨p.line, p.column + t.length⟩
  | some column => ⟨p.line + t.countNewlines, column⟩

/-- Offsets of positions lie in the text. -/
theorem offsetOf?_le_length {t : Text} {p : Position} {offset : Nat}
    (h : t.offsetOf? p = some offset) : offset ≤ t.length := by
  obtain ⟨start, _, rfl⟩ := Option.map_eq_some_iff.mp h
  exact Nat.le_trans (Nat.min_le_right _ _) (lineEnd_le_length t p.line)

end Provenance.Text
