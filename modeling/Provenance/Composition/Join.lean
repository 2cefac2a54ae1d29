/-
# Joining composed results

Composed results are joined end to end: texts are appended, tables merged, and every entry moves by
the lines and columns of the text before it.

The main facts:

* `text_join` : the text of a joined result is the joined text.
-/
import Provenance.Composition.Basic
import Provenance.Text.Position

namespace Provenance.Composition

/-- Where the next result is put, and the tables merged so far. -/
structure Joint where
  position : Text.Position := ⟨0, 0⟩
  sources : ContentTable := {}
  names : TextTable := {}

/-- The new index of an old one. -/
def moveIndex (indices : List Nat) (old : Number) : Option Number :=
  (old.toNat?.bind fun i => indices[i]?).map fun n : Nat => (n : Number)

/-- A location whose indices refer to merged tables. -/
def moveLocation (sources names : List Nat) (o : Location) : Location :=
  { o with
    source := (moveIndex sources o.source).getD .nan
    name := o.name.bind (moveIndex names) }

/-- An entry of a result that is put at a position. -/
def shift (p : Text.Position) (sources names : List Nat) (m : Mapping) : Mapping :=
  { line := m.line.moved p.line
    column := if m.line = 0 then m.column.moved p.column else m.column
    origin := m.origin.map (moveLocation sources names) }

/-- An entry that ends the range of the last entry before a position, unless a line starts there. -/
def boundary (p : Text.Position) : MappingTable :=
  if 0 < p.column then [⟨(p.line : Number), (p.column : Number), none⟩] else []

/-- The entries of results put one after the other, and the merged tables. -/
def joinFrom (joint : Joint) : List Composition → MappingTable × ContentTable × TextTable
  | [] => ([], joint.sources, joint.names)
  | c :: rest =>
    let (sourceIndices, sources) := joint.sources.internAll c.sources.entries
    let (nameIndices, names) := joint.names.internAll c.names.texts
    let entries := c.mappings.map (shift joint.position sourceIndices nameIndices)
    let (others, tables) := joinFrom ⟨joint.position.after c.text, sources, names⟩ rest
    (boundary joint.position ++ entries ++ others, tables)

/-- Results joined end to end. -/
def join (results : List Composition) : Composition :=
  let (entries, sources, names) := joinFrom {} results
  { text := results.flatMap Composition.text
    mappings := entries.normalForm
    sources := sources
    names := names
    chainLength := (results.map Composition.chainLength).foldl max 0 }

/-- The text of a joined result is the joined text. -/
theorem text_join (results : List Composition) :
    (join results).text = results.flatMap Composition.text := rfl

end Provenance.Composition
