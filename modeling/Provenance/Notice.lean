/-
# Notices

What is worth telling without being an error: lists of contents that do not fit, sources supplied in
vain, and, on demand, positions without a mapping.

The main facts:

* `lines_ne_nil` : every notice has a line to show.
-/
import Provenance.Text.Excerpt

namespace Provenance

/-- Something to tell. -/
inductive Notice where
  /-- A list of contents is longer or shorter than the list of sources. -/
  | contentCount (entries sources : Nat)
  /-- A source is supplied for a key that the map of `name` does not refer to. -/
  | unreferenced (key name : Text)
  /-- A source has no mapping at a position; the excerpt shows the place. -/
  | gap (source : Text) (line column : Number) (place : Excerpt)
  deriving DecidableEq, Repr

/-- The lines that tell it. -/
def Notice.lines : Notice → List Text
  | contentCount entries sources =>
    [("sourcesContent has " : Text) ++ Text.ofNat entries ++ " entries for " ++
      Text.ofNat sources ++ " sources"]
  | unreferenced key name =>
    [("upstream source '" : Text) ++ key ++ "' is not referenced by the map for '" ++ name ++ "'"]
  | gap source line column place =>
    [("no mapping in '" : Text) ++ source ++ "' at line " ++ Text.ofNumber line ++ " column " ++
      Text.ofNumber column, place.heading, place.caretLine]

/-- Every notice has a line to show. -/
theorem Notice.lines_ne_nil (n : Notice) : n.lines ≠ [] := by
  cases n <;> simp [lines]

end Provenance
