/-
# Requests to a content cache

A run of requests to one cache.  The computation of a value may itself make requests to the cache,
to any depth, and may fail at its end.

The main facts:

* `run_get`, `run_insert` : reading and inserting answer with the value stored.
-/
import Provenance.Cache.Basic

namespace Provenance

/-- A request to a content cache. -/
inductive CacheRequest (V : Type) where
  | get (key : ContentHash)
  | insert (key : ContentHash) (value : V)
  /-- The value under `key`; it is computed by making the nested requests and then failing with a
  message, or giving `value`. -/
  | compute (key : ContentHash) (value : V) (nested : List (CacheRequest V)) (failure : Option Text)
  | stats
  | clear

/-- The answer to a request. -/
inductive CacheAnswer (V : Type) where
  | stored (value : Option V)
  /-- The value under the key, with the answers to the nested requests if it was computed. -/
  | computed (value : V) (nested : Option (List (CacheAnswer V)))
  | failed (message : Text)
  | stats (size hits misses : Nat)
  | cleared

namespace CacheRequest

variable {V : Type}

/-- A cache, with the answers to the requests of the last computation. -/
structure Running (V : Type) where
  cache : Cache V
  nested : Option (List (CacheAnswer V)) := none

/-- The cache of a running computation. -/
def Running.cachePart : Part (Running V) (Cache V) :=
  ⟨Running.cache, fun c s => { s with cache := c }⟩

mutual

/-- The answer to a request, and the cache after it. -/
def run (c : Cache V) : CacheRequest V → CacheAnswer V × Cache V
  | get key => (.stored (c.get? key), c)
  | insert key value =>
    let (stored, c) := c.insertNew key value
    (.stored (some stored), c)
  | compute key value nested failure =>
    let computation : EStateM Text (Running V) V := fun s =>
      let (answers, c) := runAll s.cache nested
      match failure with
      | some message => .error message ⟨c, some answers⟩
      | none => .ok value ⟨c, some answers⟩
    match Cache.fetch Running.cachePart key computation ⟨c, none⟩ with
    | .ok stored s => (.computed stored s.nested, s.cache)
    | .error message s => (.failed message, s.cache)
  | stats => (.stats c.size c.hits c.misses, c)
  | clear => (.cleared, {})

/-- The answers to some requests, and the cache after all of them. -/
def runAll (c : Cache V) : List (CacheRequest V) → List (CacheAnswer V) × Cache V
  | [] => ([], c)
  | r :: rest =>
    let (answer, c) := run c r
    let (answers, c) := runAll c rest
    (answer :: answers, c)

end

/-- Reading answers with the value stored. -/
theorem run_get (c : Cache V) (key : ContentHash) :
    run c (.get key) = (.stored (c.get? key), c) := by
  unfold run
  rfl

/-- Inserting answers with the value stored. -/
theorem run_insert (c : Cache V) (key : ContentHash) (value : V) :
    run c (.insert key value) =
      (.stored (some (c.insertNew key value).1), (c.insertNew key value).2) := by
  unfold run
  rfl

end CacheRequest

end Provenance
