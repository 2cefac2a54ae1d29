/-
# Replacements

A replacement exchanges a range of a text for new content.  A list of replacements is applicable if
its ranges lie in the text, one after the other; it is then a list of edits.

The main facts:

* `flatten_pieces` : the pieces of a spliced text are the spliced text;
* `range?_eq_some_iff` : the range of a replacement.
-/
import Provenance.Text.Excerpt

namespace Provenance

/-! ## Replacements and edits -/

/-- New content for the range of a text from `start` up to `stop`, which need not make sense. -/
structure Replacement where
  start : Number
  stop : Number
  content : Text
  /-- The name that the range goes by where it comes from. -/
  name : Option Text := none
  deriving DecidableEq, Repr

/-- A replacement that puts content in front of a position and removes nothing. -/
def Replacement.insertAt (position : Number) (content : Text) (name : Option Text) : Replacement :=
  ⟨position, position, content, name⟩

/-- New content for a range of a text. -/
structure Edit where
  start : Nat
  stop : Nat
  content : Text
  name : Option Text := none
  deriving DecidableEq, Repr

namespace Edit

/-- An edit as a replacement. -/
def toReplacement (e : Edit) : Replacement :=
  ⟨(e.start : Number), (e.stop : Number), e.content, e.name⟩

/-- The number of units that a text gains by an edit. -/
def gain (e : Edit) : Int := (e.content.length : Int) - ((e.stop : Int) - (e.start : Int))

end Edit

/-! ## Splicing -/

namespace Replacement

/-- The pieces of a text after offset `done`, with replacements made. -/
def piecesFrom (t : Text) (done : Number) : List Replacement → List Text
  | [] => if done < (t.length : Number) then [t.sliceFrom done] else []
  | r :: rest =>
    (if done < r.start then [t.slice done r.start] else []) ++
      (if r.content = [] then [] else [r.content]) ++ piecesFrom t r.stop rest

/-- The stretches of a text between the replaced ranges, and the contents that replace these. -/
def pieces (t : Text) (rs : List Replacement) : List Text := piecesFrom t 0 rs

/-- The text with replacements made. -/
def splice (t : Text) (rs : List Replacement) : Text := (pieces t rs).flatten

/-- The pieces of a spliced text are the spliced text. -/
theorem flatten_pieces (t : Text) (rs : List Replacement) :
    (pieces t rs).flatten = splice t rs := rfl

end Replacement

/-- The pieces of a text with edits made. -/
def Edit.pieces (t : Text) (edits : List Edit) : List Text :=
  Replacement.pieces t (edits.map Edit.toReplacement)

/-- The text with edits made. -/
def Edit.splice (t : Text) (edits : List Edit) : Text :=
  Replacement.splice t (edits.map Edit.toReplacement)

/-! ## Applicable lists -/

/-- Why a replacement is not applicable. -/
inductive ReplacementProblem where
  | notARange
  | endsBeforeStart
  | pastTheEnd (length : Nat)
  | startsBeforePrevious (start : Nat)
  | overlapsPrevious (stop : Nat)
  deriving DecidableEq, Repr

/-- The words for a problem. -/
def ReplacementProblem.words : ReplacementProblem → Text
  | notARange => "is not a valid range"
  | endsBeforeStart => "ends before it starts"
  | pastTheEnd n => ("extends past the end of the text (" : Text) ++ Text.ofNat n ++ ")"
  | startsBeforePrevious n =>
    ("starts before the previous replacement (" : Text) ++ Text.ofNat n ++ ")"
  | overlapsPrevious n =>
    ("overlaps the previous replacement ending at " : Text) ++ Text.ofNat n

namespace Replacement

/-- The range of a replacement, if it is one of natural offsets. -/
def range? (r : Replacement) : Option (Int × Int) := do
  let start ← r.start.toInt?
  let stop ← r.stop.toInt?
  if start < 0 then none else some (start, stop)

/-- The offsets of a range are the start and the stop, and not negative. -/
theorem range?_eq_some_iff {r : Replacement} {first last : Int} :
    r.range? = some (first, last) ↔
      r.start = (first : Number) ∧ r.stop = (last : Number) ∧ 0 ≤ first := by
  constructor
  · intro h
    obtain ⟨first', hfirst, h⟩ := Option.bind_eq_some_iff.mp h
    obtain ⟨last', hlast, h⟩ := Option.bind_eq_some_iff.mp h
    split at h
    · cases h
    · rename_i hnonneg
      obtain ⟨rfl, rfl⟩ := Prod.mk.inj (Option.some.inj h)
      exact ⟨Number.eq_intCast_of_toInt? hfirst, Number.eq_intCast_of_toInt? hlast,
        Int.not_lt.mp hnonneg⟩
  · rintro ⟨hstart, hstop, hnonneg⟩
    simp [range?, hstart, hstop, Int.not_lt.mpr hnonneg]

/-- The edit that a replacement is, if it is applicable to a text of the given length after a
replacement with the given start and stop. -/
def toEdit (r : Replacement) (length previousStart previousStop : Nat) :
    Except ReplacementProblem Edit :=
  match r.range? with
  | none => .error .notARange
  | some (start, stop) =>
    if stop < start then .error .endsBeforeStart
    else if (length : Int) < stop then .error (.pastTheEnd length)
    else if start < previousStart then .error (.startsBeforePrevious previousStart)
    else if start < previousStop then .error (.overlapsPrevious previousStop)
    else .ok ⟨start.toNat, stop.toNat, r.content, r.name⟩

/-- The edits that some replacements are, or the first one that is not applicable. -/
def checkFrom (length previousStart previousStop : Nat) :
    List Replacement → Except (Replacement × ReplacementProblem) (List Edit)
  | [] => .ok []
  | r :: rest =>
    match r.toEdit length previousStart previousStop with
    | .error problem => .error (r, problem)
    | .ok e => do
      let edits ← checkFrom length e.start e.stop rest
      .ok (e :: edits)

/-- The edits that some replacements of a text are, or the first one that is not applicable. -/
def check (t : Text) (rs : List Replacement) :
    Except (Replacement × ReplacementProblem) (List Edit) := checkFrom t.length 0 0 rs

/-- The place of a replacement in a text, if it starts in it: both ends if it has them there. -/
def place? (t : Text) (r : Replacement) : Option Excerpt :=
  match r.start.toNat? with
  | none => none
  | some start =>
    if t.length < start then none
    else
      let last := r.stop - 1
      if r.start < last ∧ r.stop ≤ (t.length : Number) then some (Excerpt.of t r.start (some last))
      else some (Excerpt.of t r.start)

end Replacement

end Provenance
