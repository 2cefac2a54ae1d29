/-
# Composing with memory

A walk composes a source tree.  It remembers the result of every node it has composed; nodes that
remember also use the result in their cell, or that of any node with the same content hash.  A
remembered result is used only if the chains of source maps behind it still fit under the limit.

The main facts:

* `walk_plain` : a leaf is composed without memory.
-/
import Provenance.Session.Render

namespace Provenance.Session

/-! ## Walks -/

/-- A walk through a source tree. -/
structure Walk where
  store : Store
  /-- The results of the nodes that the walk has composed. -/
  results : List (NodeId × Composition) := []

/-- The store of a walk. -/
def Walk.storePart : Part Walk Store := ⟨Walk.store, fun s w => { w with store := s }⟩

/-- The cache of composed results during a walk. -/
def Walk.composePart : Part Walk (Cache Composition) :=
  ⟨fun w => w.store.composeCache,
    fun c w => { w with store := { w.store with composeCache := c } }⟩

/-- A step of a walk. -/
abbrev Step := EStateM ComposeError Walk

/-- Whether a result reached through `depth` source maps stays within the limit. -/
def fits (limit : Number) (depth : Nat) (c : Composition) : Bool :=
  ((depth + c.chainLength : Nat) : Number) ≤ limit

/-- Tells something. -/
def tell (notices : List Notice) : Step Unit :=
  modify fun w => { w with store := w.store.tell notices }

/-! ## Remembered results -/

/-- The result that the walk has for a node, if it fits, or else a new one, which it remembers. -/
def once (limit : Number) (depth : Nat) (id : NodeId) (compute : Step Composition) :
    Step Composition := do
  match (← get).results.lookup id with
  | some c => if fits limit depth c then pure c else anew
  | none => anew
where
  /-- A new result, remembered by the walk. -/
  anew : Step Composition := do
    let c ← compute
    modify fun w => { w with results := Assoc.insert id c w.results }
    pure c

/-- The result in a node's cell; if there is none, that of the node's content hash, computed if it
is not in the cache. -/
def stored (id : NodeId) (contentHash : Reader ContentHash) (compute : Step Composition) :
    Step Composition := do
  match ((← get).store.cell id).composed with
  | some c => pure c
  | none => do
    let key ← Walk.storePart.run (remember .contentHash id contentHash).act
    let c ← Cache.fetch Walk.composePart key compute
    modify fun w => { w with store := w.store.updateCell id (Slot.composed.put c) }
    pure c

/-! ## The walk -/

/-- Tells which of the listed further sources of a generated text its map does not refer to. -/
def tellUnreferenced (node : GeneratedText) (inputs : List (Text × Source)) : Step Unit :=
  tell ((node.unreferenced (Assoc.keys (node.listed inputs))).map fun key => .unreferenced key node.name)

/-- The result for a generated text, given the results for the generated ones among its sources. -/
def finishGenerated (node : GeneratedText) (results : List (Option Composition)) :
    Step Composition := do
  let table ← (Walk.storePart.run (decodeKept node.map.mappings)).adaptExcept .decode
  let (gaps, result) := Composition.generate node results table
  if (← get).store.tracing then tell (gaps.map Gap.notice)
  settle .resolve result

mutual

/-- The composed result of a source that is reached through `depth` source maps. -/
def walk (limit : Number) (depth : Nat) : Source → Step Composition
  | .plain t => pure (.plain t)
  | .file t name => pure (.file t name)
  | .generated id node inputs => once limit depth id do
    tellUnreferenced node inputs
    let results ← (node.keys inputs).mapM fun key =>
      match key with
      | none => pure none
      | some key =>
        if limit < ((depth + 1 : Nat) : Number) then throw (.tooDeep node.name (depth + 1))
        else some <$> walkInput limit (depth + 1) key inputs
    finishGenerated node results
  | .joined id children => once limit depth id do
    let results ← walkAll limit depth children
    pure (.join results)
  | .edited id base edits => once limit depth id do
    let result ← walk limit depth base
    pure (result.edit edits)
  | .kept id child => once limit depth id do
    let c ← stored id (contentHashOf child) (walk limit depth child)
    if fits limit depth c then pure c else walk limit depth child

/-- The composed results of some sources. -/
def walkAll (limit : Number) (depth : Nat) : List Source → Step (List Composition)
  | [] => pure []
  | s :: rest => do
    let first ← walk limit depth s
    let others ← walkAll limit depth rest
    pure (first :: others)

/-- The composed result of the further source under a key; where none stands, something else has been
found. -/
def walkInput (limit : Number) (depth : Nat) (key : Text) :
    List (Text × Source) → Step Composition
  | [] => throw .notSource
  | (k, s) :: rest =>
    if k = key then walk limit depth s else walkInput limit depth key rest

end

/-- The composed result of a source, by a walk of its own. -/
def compose (limit : Number) (s : Source) : EStateM ComposeError Store Composition := fun store =>
  match walk limit 0 s ⟨store, []⟩ with
  | .ok c w => .ok c w.store
  | .error e w => .error e w.store

/-- A leaf is composed without memory. -/
theorem walk_plain (limit : Number) (depth : Nat) (t : Text) (w : Walk) :
    walk limit depth (.plain t) w = .ok (.plain t) w := by
  unfold walk
  rfl

end Provenance.Session
