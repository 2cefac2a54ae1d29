/-
# Composing source trees

Composing a source tree means composing its parts and putting the results together.  Tracing a map
through a generated source adds a step to the chain of source maps, and chains longer than the limit
are refused.

The main facts:

* `compositionAt_kept` : remembering changes no result;
* `compositionAt_plain`, `compositionAt_file` : the leaves are composed at any depth.
-/
import Provenance.Composition.Join
import Provenance.Composition.Generate
import Provenance.Composition.Edit
import Provenance.Mapping.Decode

namespace Provenance

/-- Why a source cannot be composed. -/
inductive ComposeError where
  /-- The chain of source maps through the source called `name` reaches a depth beyond the limit. -/
  | tooDeep (name : Text) (depth : Nat)
  /-- What is found for a source of a map is no source. -/
  | notSource
  | resolve (e : ResolveError)
  | decode (e : DecodeError)
  deriving DecidableEq, Repr

/-- The words for a source that cannot be composed, if it has words of its own. -/
def ComposeError.message : ComposeError → Option Text
  | tooDeep name depth =>
    some (("source map chain through '" : Text) ++ name ++ "' exceeds " ++ Text.ofNat (depth - 1) ++
      " levels")
  | notSource => none
  | resolve e => e.message
  | decode e => some e.message

/-- The length of the longest chain of source maps to trace through if nothing else is said. -/
def defaultMaxChain : Nat := 32

/-- For each source of the map, the key under which something is found that stands for it, if there is
anything. -/
def GeneratedText.keys (node : GeneratedText) (inputs : List (Text × Source)) :
    List (Option Text) :=
  (node.map.qualifiedSources.zip node.map.sources).map fun (qualified, plain) =>
    node.key? inputs qualified plain

namespace Source

mutual

/-- The composed result of a source that is reached through `depth` source maps. -/
def compositionAt (limit : Number) (depth : Nat) : Source → Except ComposeError Composition
  | plain t => .ok (.plain t)
  | file t name => .ok (.file t name)
  | generated _ node inputs => do
    let results ← (node.keys inputs).mapM fun key =>
      match key with
      | none => .ok none
      | some key =>
        if limit < ((depth + 1 : Nat) : Number) then .error (.tooDeep node.name (depth + 1))
        else (inputCompositionAt limit (depth + 1) key inputs).map some
    let table ← (MappingTable.decode node.map.mappings).mapError .decode
    (Composition.generate node results table).2.mapError .resolve
  | joined _ children => do
    let results ← compositionsAt limit depth children
    .ok (.join results)
  | edited _ base edits => do
    let result ← compositionAt limit depth base
    .ok (result.edit edits)
  | kept _ child => compositionAt limit depth child

/-- The composed results of some sources. -/
def compositionsAt (limit : Number) (depth : Nat) :
    List Source → Except ComposeError (List Composition)
  | [] => .ok []
  | s :: rest => do
    let first ← compositionAt limit depth s
    let others ← compositionsAt limit depth rest
    .ok (first :: others)

/-- The composed result of the further source under a key; where none stands, something else has been
found. -/
def inputCompositionAt (limit : Number) (depth : Nat) (key : Text) :
    List (Text × Source) → Except ComposeError Composition
  | [] => .error .notSource
  | (k, s) :: rest =>
    if k = key then compositionAt limit depth s
    else inputCompositionAt limit depth key rest

end

/-- The composed result of a source. -/
def compose (limit : Number) (s : Source) : Except ComposeError Composition :=
  compositionAt limit 0 s

/-- Remembering changes no result. -/
theorem compositionAt_kept (limit : Number) (depth : Nat) (id : NodeId) (child : Source) :
    compositionAt limit depth (kept id child) = compositionAt limit depth child := by
  rw [compositionAt]

/-- A text that comes from nowhere is composed at any depth. -/
theorem compositionAt_plain (limit : Number) (depth : Nat) (t : Text) :
    compositionAt limit depth (plain t) = .ok (.plain t) := by
  rw [compositionAt]

/-- A file is composed at any depth. -/
theorem compositionAt_file (limit : Number) (depth : Nat) (t name : Text) :
    compositionAt limit depth (file t name) = .ok (.file t name) := by
  rw [compositionAt]

end Source

end Provenance
