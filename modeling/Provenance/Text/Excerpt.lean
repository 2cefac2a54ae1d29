/-
# Excerpts

An excerpt shows the line of a text that contains an offset, with a caret under the offset and, if
it lies on the same line, under a second one.

The main facts:

* `length_caretLine` : the line of carets ends under the last mark.
-/
import Provenance.Text.Lines

namespace Provenance

/-- One line of a text, with one or two marked places in it. -/
structure Excerpt where
  /-- The line without its line feed. -/
  line : Text
  /-- The line's number, counted from 1. -/
  number : Nat
  /-- The marked offset, counted from the start of the line. -/
  mark : Number
  /-- The second marked offset, if it lies on the line. -/
  secondMark : Option Number := none
  deriving DecidableEq, Repr

/-- Why an excerpt cannot be shown. -/
inductive Excerpt.TooLong where
  /-- The line of carets has more places than can be filled. -/
  | caretLine
  /-- The line with its number, or the line of carets, would be longer than a text can be. -/
  | text
  deriving DecidableEq, Repr

namespace Excerpt

/-- The words for an excerpt that cannot be shown. -/
def TooLong.message : TooLong → Text
  | caretLine => "Invalid array length"
  | text => "Invalid string length"

/-- The excerpt of a text around an offset, with a second offset marked if it lies on the same
line, the line's end included. -/
def of (t : Text) (pos : Number) (second : Option Number := none) : Excerpt :=
  let index := Text.lineOf (t.lineOffsets.map fun s : Nat => (s : Number)) pos
  let start := t.lineOffsets.getD index 0
  let stop := t.lineEnd index
  { line := (t.take stop).drop start
    number := index + 1
    mark := pos.moved (-start)
    secondMark := second.bind fun p =>
      if (start : Number) ≤ p ∧ p ≤ (stop : Number) then some (p.moved (-start)) else none }

/-- The marks under which a caret stands, in order. -/
def marks (e : Excerpt) : List Number :=
  match e.secondMark with
  | some m => if e.mark < m then [e.mark, m] else [e.mark]
  | none => [e.mark]

/-- The line of carets reaches just behind its last mark. -/
def caretCount (e : Excerpt) : Nat :=
  ((e.marks.getLastD e.mark).moved 1).toCount

/-- A caret under each mark, and blanks elsewhere. -/
def caretLine (e : Excerpt) : Text :=
  (List.range e.caretCount).map fun i : Nat =>
    if (i : Number) ∈ e.marks then CodeUnit.ofChar '^' else CodeUnit.ofChar ' '

/-- The line with its number. -/
def heading (e : Excerpt) : Text :=
  e.line ++ "  Ln " ++ Text.ofNat e.number

/-- The line with its number, and the carets under it. -/
def context (e : Excerpt) : Text × Text := (e.heading, e.caretLine)

/-- The most places that are filled with carets and blanks. -/
def maxCarets : Nat := 0xFFFFFFFF

/-- The line and the carets under it, unless one of them is too long. -/
def context? (e : Excerpt) : Except TooLong (Text × Text) :=
  if Text.maxLength < e.heading.length then .error .text
  else if maxCarets < e.caretCount then .error .caretLine
  else if Text.maxLength < e.caretCount then .error .text
  else .ok e.context

/-- The line of carets ends under the last mark. -/
theorem length_caretLine (e : Excerpt) : e.caretLine.length = e.caretCount := by
  simp [caretLine]

end Excerpt

end Provenance
