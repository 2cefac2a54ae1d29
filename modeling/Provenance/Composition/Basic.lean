/-
# Composed results

Composing a source gives its text and one table that maps it all the way back to files.
-/
import Provenance.Mapping.Identity
import Provenance.Mapping.Normal
import Provenance.Table.Basic

namespace Provenance

/-- A text, its mappings, and the sources and names that these refer to. -/
structure Composition where
  text : Text
  mappings : MappingTable
  sources : ContentTable
  names : TextTable
  /-- The length of the longest chain of source maps that was traced through. -/
  chainLength : Nat
  deriving DecidableEq, Repr

namespace Composition

/-- The result for a text that comes from nowhere. -/
def plain (text : Text) : Composition := ⟨text, [], {}, {}, 0⟩

/-- The result for the text of a file. -/
def file (text name : Text) : Composition :=
  ⟨text, MappingTable.identity text 0, ContentTable.ofList [name] [some text], {}, 0⟩

end Composition

end Provenance
