/-
# Sessions

A session defines sources under names and answers queries about them, one request after the other.
A request that fails changes nothing but what is remembered.

The main facts:

* `runAll_append` : a list of requests is run by running one part after the other.
-/
import Provenance.Session.Plan
import Provenance.Session.Outline

namespace Provenance

/-! ## Requests and answers -/

/-- What can be asked about a source. -/
inductive Query where
  | text
  | size
  | buffer
  /-- The text written to a sink, which is closed after some pieces if a capacity is given. -/
  | write (capacity : Option Nat)
  | map (options : OutputOptions)
  | textAndMap (options : OutputOptions)
  | positions (options : OutputOptions) (places : List (Number × Number))
  | compose (options : OutputOptions)
  | contentHash
  | outline (indent : Text)
  | held

/-- The caches that can be cleared. -/
inductive CacheChoice where
  | decoded
  | composed
  | both
  deriving DecidableEq, Repr

/-- A request of a session. -/
inductive Request where
  | define (name : Text) (plan : Plan)
  | query (source : Plan) (query : Query)
  | decode (mappings : Text)
  | stats
  | clear (choice : CacheChoice)
  | setTracing (on : Bool)

/-- The size of a cache, and how often values were found and not found in it. -/
structure CacheStats where
  size : Nat
  hits : Nat
  misses : Nat
  deriving DecidableEq, Repr

/-- The numbers of a cache. -/
def Cache.stats {V : Type} (c : Cache V) : CacheStats := ⟨c.size, c.hits, c.misses⟩

/-- The answer to a request. -/
inductive Answer where
  | defined (kind : SourceKind)
  | text (t : Text)
  | size (n : Nat)
  | buffer (bytes : List UInt8)
  /-- The pieces that were written, and the error of a sink that closed. -/
  | written (pieces : List Text) (error : Option Session.SinkError)
  | map (m : Option SourceMap)
  | textAndMap (t : Text) (m : Option SourceMap)
  | positions (found : Option (List (Option OriginPosition)))
  | composed (c : Composition)
  | contentHash (f : ContentHash)
  | outline (t : Text)
  /-- The names of the results in a node's cell; none if the node has no cell. -/
  | held (names : Option (List Text))
  | table (t : MappingTable)
  | stats (decoded composed : CacheStats)
  | done
  deriving DecidableEq, Repr

/-! ## The session -/

/-- A session: what it remembers, and the sources that have been defined. -/
structure Session where
  store : Store := {}
  defined : Session.Definitions := []

namespace Session

/-- Writes a source to a sink; gives the pieces written and the error of a sink that closed. -/
def written (s : Source) (capacity : Option Nat) : Action Answer := fun store =>
  match writeSource Sink.put s ⟨store, { closing := capacity.map fun n => (n, .closed) }⟩ with
  | .ok _ w => .ok (.written w.sink.written none) w.store
  | .error e w => .ok (.written w.sink.written (some e)) w.store

/-- The answer to a query about a source. -/
def ask (s : Source) : Query → Action Answer
  | .text => do
    let t ← (textOf s).act
    pure (.text t)
  | .size => do
    let n ← (sizeOf s).act
    pure (.size n)
  | .buffer => do
    let bytes ← (bufferOf s).act
    pure (.buffer bytes)
  | .write capacity => written s capacity
  | .map options => do
    let m ← mapOf s options
    pure (.map m)
  | .textAndMap options => do
    let (t, m) ← textAndMapOf s options
    pure (.textAndMap t m)
  | .positions options places => do
    let found ← positionsOf s options places
    pure (.positions found)
  | .compose options => do
    let c ← composedOf s options
    pure (.composed c)
  | .contentHash => do
    let f ← (contentHashOf s).act
    pure (.contentHash f)
  | .outline indent => do
    let store ← get
    pure (.outline (outline store indent s))
  | .held => do
    let store ← get
    match s with
    | .kept id _ => pure (.held (some (store.cell id).held))
    | _ => pure (.held none)

/-- Clears one cache or both. -/
def clearCaches (choice : CacheChoice) (s : Store) : Store :=
  match choice with
  | .decoded => { s with decodeCache := {} }
  | .composed => { s with composeCache := {} }
  | .both => { s with decodeCache := {}, composeCache := {} }

/-- The answer to a request, with the definitions after it. -/
def perform (defined : Definitions) : Request → Action (Answer × Definitions)
  | .define name plan => do
    let s ← build defined plan
    pure (.defined s.kind, Assoc.insert name s defined)
  | .query plan q => do
    let s ← build defined plan
    let answer ← ask s q
    pure (answer, defined)
  | .decode t => do
    let table ← (decodeKept t).adaptExcept .decode
    pure (.table table, defined)
  | .stats => do
    let s ← get
    pure (.stats s.decodeCache.stats s.composeCache.stats, defined)
  | .clear choice => do
    modify (clearCaches choice)
    pure (.done, defined)
  | .setTracing on => do
    modify fun s => { s with tracing := on }
    pure (.done, defined)

/-- The outcome of a request: an answer or a fault, and what was told on the way. -/
structure Outcome where
  result : Except Fault Answer
  notices : List Notice

/-- Runs one request. -/
def run (session : Session) (r : Request) : Outcome × Session :=
  match perform session.defined r { session.store with notices := [] } with
  | .ok (answer, defined) s => (⟨.ok answer, s.notices⟩, ⟨s, defined⟩)
  | .error e s => (⟨.error e, s.notices⟩, ⟨s, session.defined⟩)

/-- Runs some requests one after the other. -/
def runAll (session : Session) : List Request → List Outcome × Session
  | [] => ([], session)
  | r :: rest =>
    let (outcome, session) := session.run r
    let (outcomes, session) := session.runAll rest
    (outcome :: outcomes, session)

/-- A list of requests is run by running one part after the other. -/
theorem runAll_append (session : Session) (xs ys : List Request) :
    session.runAll (xs ++ ys) =
      ((session.runAll xs).1 ++ ((session.runAll xs).2.runAll ys).1,
        ((session.runAll xs).2.runAll ys).2) := by
  induction xs generalizing session with
  | nil => rfl
  | cons r rest ih =>
    simp only [List.cons_append, runAll]
    rw [ih]

end Session

end Provenance
