/-
# Source maps with memory

The source map of a source, alone or with its text, and the origins that it gives.  A node that
remembers keeps its maps with and without columns, and adds the fields of the document when it is
asked.
-/
import Provenance.Session.Walk

namespace Provenance

/-- The limit that options set on chains of source maps. -/
def OutputOptions.limit (options : OutputOptions) : Number :=
  options.maxChain.getD (defaultMaxChain : Nat)

/-- The map with the document fields that options ask for. -/
def SourceMap.withFields (m : SourceMap) (options : OutputOptions) : SourceMap :=
  { m with
    file := options.file.or m.file
    sourceRoot := options.sourceRoot.or m.sourceRoot }

namespace Session

/-- The composed result of a source. -/
def composedOf (s : Source) (options : OutputOptions) : Action Composition :=
  (compose options.limit s).adaptExcept .compose

/-- The source map of a node that remembers.  The node is composed even where its map is stored, so
that chains beyond the limit are refused. -/
def keptMapOf (id : NodeId) (child : Source) (options : OutputOptions) :
    Action (Option SourceMap) := do
  let c ← composedOf (.kept id child) options
  let slot := Slot.map options.columns
  let m ←
    match slot.get ((← get).cell id) with
    | some m => pure m
    | none => do
      let m ← settle .map (c.toMap { columns := options.columns })
      modify fun s => s.updateCell id (slot.put m)
      pure m
  pure (m.map fun m => m.withFields options)

/-- The source map of a source; none if nothing in its text comes from a file. -/
def mapOf (s : Source) (options : OutputOptions) : Action (Option SourceMap) :=
  match s with
  | .kept id child => keptMapOf id child options
  | s => do
    let c ← composedOf s options
    settle .map (c.toMap options)

/-- The text of a source and its source map. -/
def textAndMapOf (s : Source) (options : OutputOptions) : Action (Text × Option SourceMap) :=
  match s with
  | .kept id child => do
    let m ← keptMapOf id child options
    let t ← (textOf (.kept id child)).act
    pure (t, m)
  | s => do
    let c ← composedOf s options
    let m ← settle .map (c.toMap options)
    pure (c.text, m)

/-- The origins that a map gives for some positions.  Each asks for the decoded table. -/
def positionsIn (m : SourceMap) : List (Number × Number) → Action (List (Option OriginPosition))
  | [] => pure []
  | (line, column) :: rest => do
    let table ← (decodeKept m.mappings).adaptExcept .decode
    let others ← positionsIn m rest
    pure (m.positionIn table line column :: others)

/-- The origins of some positions of a source; none if the source has no map. -/
def positionsOf (s : Source) (options : OutputOptions) (places : List (Number × Number)) :
    Action (Option (List (Option OriginPosition))) := do
  match ← mapOf s options with
  | none => pure none
  | some m => do
    let positions ← positionsIn m places
    pure (some positions)

end Session

end Provenance
