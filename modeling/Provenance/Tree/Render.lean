/-
# Rendering

What a source tree amounts to as text: the text itself, the pieces in which it is written out, and
its UTF-8 bytes.

The main facts:

* `flatten_piecesOf` : the pieces written out make up the text;
* `textAll_append` : the text of joined sources is the joined text.
-/
import Provenance.Text.Utf8
import Provenance.Tree.Basic

namespace Provenance.Source

mutual

/-- The text of a source. -/
def text : Source → Text
  | plain t => t
  | file t _ => t
  | generated _ node _ => node.text
  | joined _ children => textAll children
  | edited _ base edits => Edit.splice (text base) edits
  | kept _ child => text child

/-- The joined text of some sources. -/
def textAll : List Source → Text
  | [] => []
  | s :: rest => text s ++ textAll rest

end

/-- A text as a piece to write, if there is anything to write. -/
def piece (t : Text) : List Text := if t = [] then [] else [t]

mutual

/-- The pieces in which the text of a source is written out. -/
def piecesOf : Source → List Text
  | plain t => piece t
  | file t _ => piece t
  | generated _ node _ => piece node.text
  | joined _ children => piecesOfAll children
  | edited _ base edits => (Edit.pieces (text base) edits).flatMap piece
  | kept _ child => piece (text child)

/-- The pieces in which the joined text of some sources is written out. -/
def piecesOfAll : List Source → List Text
  | [] => []
  | s :: rest => piecesOf s ++ piecesOfAll rest

end

/-- The bytes of the text of a source. -/
def bytes (s : Source) : List UInt8 := (text s).utf8

/-- The number of bytes of the text of a source. -/
def size (s : Source) : Nat := (bytes s).length

/-! ## Laws -/

theorem flatten_piece (t : Text) : (piece t).flatten = t := by
  unfold piece
  split
  · rename_i h
    rw [h]
    rfl
  · exact List.append_nil t

theorem flatten_flatMap_piece (ts : List Text) : (ts.flatMap piece).flatten = ts.flatten := by
  induction ts with
  | nil => rfl
  | cons t rest ih =>
    rw [List.flatMap_cons, List.flatten_append, flatten_piece, ih, List.flatten_cons]

mutual

/-- The pieces written out make up the text. -/
theorem flatten_piecesOf (s : Source) : (piecesOf s).flatten = text s := by
  cases s with
  | plain t => rw [piecesOf, text, flatten_piece]
  | file t name => rw [piecesOf, text, flatten_piece]
  | generated id node inputs => rw [piecesOf, text, flatten_piece]
  | joined id children => rw [piecesOf, text, flatten_piecesOfAll children]
  | edited id base edits =>
    rw [piecesOf, text, flatten_flatMap_piece]
    rfl
  | kept id child => rw [piecesOf, text, flatten_piece]

/-- The pieces of joined sources make up the joined text. -/
theorem flatten_piecesOfAll (ss : List Source) : (piecesOfAll ss).flatten = textAll ss := by
  cases ss with
  | nil => rfl
  | cons s rest =>
    rw [piecesOfAll, textAll, List.flatten_append, flatten_piecesOf s, flatten_piecesOfAll rest]

end

/-- The text of joined sources is the joined text. -/
theorem textAll_append (xs ys : List Source) : textAll (xs ++ ys) = textAll xs ++ textAll ys := by
  induction xs with
  | nil => rfl
  | cons s rest ih => rw [List.cons_append, textAll, textAll, ih, List.append_assoc]

end Provenance.Source
