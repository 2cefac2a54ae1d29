/-
# Source maps of composed results

The source map of a composed result lists only the sources and names that its entries refer to, in
the order of their first reference.

The main facts:

* `toMap_eq_none` : a result without an origin has no source map.
-/
import Provenance.Composition.Basic
import Provenance.Mapping.Encode
import Provenance.SourceMap.Basic

namespace Provenance

/-- How a source map is to be made. -/
structure OutputOptions where
  /-- Whether each entry is kept, or only one for each line. -/
  columns : Bool := true
  /-- The name of the generated file. -/
  file : Option Text := none
  /-- The root of the sources. -/
  sourceRoot : Option Text := none
  /-- The length of the longest chain of source maps to trace through. -/
  maxChain : Option Number := none
  deriving DecidableEq, Repr

/-- Why a composed result has no source map document. -/
inductive MapError where
  | missing (e : MissingIndex)
  | encode (e : EncodeError)
  deriving DecidableEq, Repr

/-- The words for a result that has no document. -/
def MapError.message : MapError → Text
  | missing e => e.message
  | encode e => e.message

namespace MappingTable

/-- The locations of a table in order. -/
def locations (table : MappingTable) : List Location := table.filterMap Mapping.origin

/-- The source indices that entries refer to, in the order of their first reference. -/
def usedSources (table : MappingTable) : List Number :=
  (table.locations.map Location.source).eraseDups

/-- The name indices that entries refer to, in the order of their first reference. -/
def usedNames (table : MappingTable) : List Number :=
  (table.locations.filterMap Location.name).eraseDups

/-- The place of an index among those in use. -/
def placeOf (used : List Number) (index : Number) : Number := (used.idxOf index : Nat)

/-- The table with its indices renumbered in the order of their first reference. -/
def compact (table : MappingTable) : MappingTable :=
  let sources := table.usedSources
  let names := table.usedNames
  table.map fun m =>
    { m with
      origin := m.origin.map fun o =>
        { o with source := placeOf sources o.source, name := o.name.map (placeOf names) } }

end MappingTable

namespace Composition

/-- The table that goes into a source map. -/
def outputTable (c : Composition) (options : OutputOptions) : MappingTable :=
  if options.columns then c.mappings else c.mappings.firstOfLines

/-- The contents of the sources at some indices, if any of them is known. -/
def outputContents (c : Composition) (indices : List Number) : Option (List (Option Text)) :=
  let contents := indices.map c.sources.content?
  if contents.any Option.isSome then some contents else none

/-- The texts of a table at some indices. -/
def lookupAll (t : TextTable) (indices : List Number) : Except MapError (List Text) :=
  indices.mapM fun i =>
    match t.get i with
    | .ok s => .ok s
    | .error e => .error (.missing e)

/-- The mappings text of a table. -/
def encodeTable (table : MappingTable) : Except MapError Text :=
  match table.encode with
  | .ok t => .ok t
  | .error e => .error (.encode e)

/-- The source map of a composed result; none if no entry has an origin. -/
def toMap (c : Composition) (options : OutputOptions) : Except MapError (Option SourceMap) :=
  let table := c.outputTable options
  if table.locations = [] then .ok none
  else do
    let sources ← lookupAll c.sources.names table.usedSources
    let names ← lookupAll c.names table.usedNames
    let mappings ← encodeTable table.compact
    .ok (some
      { sources := sources
        contents := c.outputContents table.usedSources
        names := names
        mappings := mappings
        file := options.file
        sourceRoot := options.sourceRoot })

/-- A result without an origin has no source map. -/
theorem toMap_eq_none {c : Composition} {options : OutputOptions}
    (h : (c.outputTable options).locations = []) : c.toMap options = .ok none := by
  unfold toMap
  rw [if_pos h]

end Composition

end Provenance
