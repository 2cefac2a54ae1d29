/-
# What a session remembers

A session remembers, for each node whose results are kept, a cell with those computed so far, and
for all nodes together two content caches: decoded mapping tables and composed results.

The main facts:

* `remember_of_filled`, `remember_of_empty` : a result that is in its cell is not computed again, and
  one that is not is put there;
* `cell_updateCell` : changing one cell changes no other.
-/
import Provenance.Cache.Basic
import Provenance.Composition.Output
import Provenance.Tree.Composition
import Provenance.Tree.Check
import Provenance.Tree.ContentHash
import Provenance.Tree.Render

namespace Provenance

/-! ## Cells -/

/-- The results that are remembered for one node. -/
structure Cell where
  text : Option Text := none
  size : Option Nat := none
  buffer : Option (List UInt8) := none
  contentHash : Option ContentHash := none
  composed : Option Composition := none
  /-- The source maps made so far, by whether they keep columns; none where there is no map. -/
  maps : List (Bool × Option SourceMap) := []
  deriving DecidableEq, Repr, Inhabited

/-- The names of the results in a cell. -/
def Cell.held (c : Cell) : List Text :=
  let single : List (Text × Bool) :=
    [("text", c.text.isSome), ("size", c.size.isSome), ("buffer", c.buffer.isSome),
      ("fingerprint", c.contentHash.isSome), ("composed", c.composed.isSome)]
  (single.filter Prod.snd).map Prod.fst ++
    c.maps.map fun (columns, _) => if columns then ("map" : Text) else ("linesMap" : Text)

/-- A result that a cell may hold. -/
structure Slot (α : Type) where
  get : Cell → Option α
  put : α → Cell → Cell

namespace Slot

/-- The text of a node. -/
def text : Slot Text := ⟨Cell.text, fun v c => { c with text := some v }⟩

/-- The number of bytes of a node's text. -/
def size : Slot Nat := ⟨Cell.size, fun v c => { c with size := some v }⟩

/-- The bytes of a node's text. -/
def buffer : Slot (List UInt8) := ⟨Cell.buffer, fun v c => { c with buffer := some v }⟩

/-- The content hash of a node. -/
def contentHash : Slot ContentHash :=
  ⟨Cell.contentHash, fun v c => { c with contentHash := some v }⟩

/-- The composed result of a node. -/
def composed : Slot Composition := ⟨Cell.composed, fun v c => { c with composed := some v }⟩

/-- The source map of a node with or without columns. -/
def map (columns : Bool) : Slot (Option SourceMap) :=
  ⟨fun c => c.maps.lookup columns, fun v c => { c with maps := Assoc.insert columns v c.maps }⟩

end Slot

/-! ## The store -/

/-- All that a session remembers between two queries. -/
structure Store where
  /-- The identity that the next new node gets. -/
  nextId : NodeId := 0
  cells : List (NodeId × Cell) := []
  decodeCache : Cache MappingTable := {}
  composeCache : Cache Composition := {}
  /-- The fields of each content hash made so far.  No answer depends on them; they are the contents
  that one content hash could stand for. -/
  hashed : List (List Text) := []
  /-- Whether gaps are told. -/
  tracing : Bool := false
  /-- What has been told since the last answer. -/
  notices : List Notice := []

namespace Store

/-- The cell of a node. -/
def cell (s : Store) (id : NodeId) : Cell := (s.cells.lookup id).getD {}

/-- The store with a change to one cell. -/
def updateCell (s : Store) (id : NodeId) (change : Cell → Cell) : Store :=
  { s with cells := Assoc.insert id (change (s.cell id)) s.cells }

/-- The store with something told. -/
def tell (s : Store) (notices : List Notice) : Store := { s with notices := s.notices ++ notices }

/-- Changing one cell changes no other. -/
theorem cell_updateCell (s : Store) (id other : NodeId) (change : Cell → Cell) :
    (s.updateCell id change).cell other =
      if other = id then change (s.cell id) else s.cell other := by
  unfold updateCell cell
  by_cases h : other = id
  · rw [if_pos h, h, Assoc.lookup_insert_self]
    rfl
  · rw [if_neg h, Assoc.lookup_insert_of_ne h]

end Store

/-! ## Actions on the store -/

/-- Computes with the store and never fails. -/
abbrev Reader := StateM Store

/-- Why a request of a session fails. -/
inductive Fault where
  | load (e : LoadError)
  | construction (e : BuildError)
  | decode (e : DecodeError)
  | compose (e : ComposeError)
  | map (e : MapError)
  /-- No source has been defined under a name. -/
  | unknownSource (name : Text)
  deriving DecidableEq, Repr

/-- The words for a failing request, if it has words of its own. -/
def Fault.message : Fault → Option Text
  | load e => e.message
  | construction e => some e.message
  | decode e => some e.message
  | compose e => e.message
  | map e => some e.message
  | unknownSource _ => some "unknown ref"

/-- Computes with the store and may fail; what is remembered up to the failure stays. -/
abbrev Action := EStateM Fault Store

/-- An action on a part of a larger state. -/
def Part.run {σ τ ε α : Type} (part : Part σ τ) (action : EStateM ε τ α) :
    EStateM ε σ α := fun s =>
  match action (part.get s) with
  | .ok v t => .ok v (part.set t s)
  | .error e t => .error e (part.set t s)

/-- The whole of a state. -/
def Part.whole {σ : Type} : Part σ σ := ⟨fun s => s, fun s _ => s⟩

/-- The cache of decoded tables. -/
def Store.decodePart : Part Store (Cache MappingTable) :=
  ⟨Store.decodeCache, fun c s => { s with decodeCache := c }⟩

/-- A computation that cannot fail, among those that may. -/
def Reader.act {ε α : Type} (r : Reader α) : EStateM ε Store α := fun s =>
  let (v, s) := r s
  .ok v s

/-- A result that has been worked out, or the fault of one that cannot be. -/
def settle {σ ε ε' α : Type} (fault : ε → ε') (result : Except ε α) : EStateM ε' σ α :=
  match result with
  | .ok v => pure v
  | .error e => throw (fault e)

/-- The result in a node's cell, computed and put there first if it is missing. -/
def remember {α : Type} (slot : Slot α) (id : NodeId) (compute : Reader α) : Reader α := fun s =>
  match slot.get (s.cell id) with
  | some v => (v, s)
  | none =>
    let (v, s) := compute s
    (v, s.updateCell id (slot.put v))

/-- The content hash of a list of fields. -/
def hashFields (fields : List Text) : Reader ContentHash := fun s =>
  (.ofFields fields, { s with hashed := fields :: s.hashed })

/-- The table of a mappings text, from the cache if it has been decoded before. -/
def decodeKept (t : Text) : EStateM DecodeError Store MappingTable := do
  let key ← (hashFields [t]).act
  Cache.fetch Store.decodePart key (settle id (MappingTable.decode t))

/-- A result that is in its cell is not computed again. -/
theorem remember_of_filled {α : Type} {slot : Slot α} {id : NodeId} {s : Store} {v : α}
    (h : slot.get (s.cell id) = some v) (compute : Reader α) :
    remember slot id compute s = (v, s) := by
  unfold remember
  rw [h]

/-- A result that is not in its cell is computed and put there. -/
theorem remember_of_empty {α : Type} {slot : Slot α} {id : NodeId} {s : Store}
    (h : slot.get (s.cell id) = none) (compute : Reader α) :
    remember slot id compute s =
      ((compute s).1, (compute s).2.updateCell id (slot.put (compute s).1)) := by
  unfold remember
  rw [h]
  rfl

end Provenance
