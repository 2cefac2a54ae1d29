/-
# Content caches

A content cache stores values under content hashes of what they were computed from, and counts how
often a value was found and how often it was not.  A value once stored stays until the cache is
cleared.

The main facts:

* `get?_insertNew` : after an insertion the value returned is the one stored;
* `insertNew_fst` : a stored value is not replaced.
-/
import Provenance.Assoc
import Provenance.Digest.ContentHash

namespace Provenance

/-- Values stored under content hashes, with the numbers of hits and misses. -/
structure Cache (V : Type) where
  entries : List (ContentHash × V) := []
  hits : Nat := 0
  misses : Nat := 0
  deriving DecidableEq, Repr

namespace Cache

variable {V : Type}

/-- The value stored under a key. -/
def get? (c : Cache V) (key : ContentHash) : Option V := c.entries.lookup key

/-- The number of keys with a value. -/
def size (c : Cache V) : Nat := c.entries.length

/-- The value stored under a key, after the given one has been stored if there was none. -/
def insertNew (c : Cache V) (key : ContentHash) (value : V) : V × Cache V :=
  match c.get? key with
  | some stored => (stored, c)
  | none => (value, { c with entries := c.entries ++ [(key, value)] })

/-- A value has been found. -/
def countHit (c : Cache V) : Cache V := { c with hits := c.hits + 1 }

/-- A value has not been found. -/
def countMiss (c : Cache V) : Cache V := { c with misses := c.misses + 1 }

/-! ## Laws -/

/-- A stored value is not replaced. -/
theorem insertNew_fst (c : Cache V) (key : ContentHash) (value : V) :
    (c.insertNew key value).1 = (c.get? key).getD value := by
  unfold insertNew
  cases c.get? key <;> rfl

/-- After an insertion the value returned is the one stored. -/
theorem get?_insertNew (c : Cache V) (key : ContentHash) (value : V) :
    (c.insertNew key value).2.get? key = some (c.insertNew key value).1 := by
  unfold insertNew
  cases h : c.get? key with
  | some stored => exact h
  | none =>
    unfold get? at h ⊢
    simp [List.lookup_append, h]

/-- An insertion changes nothing under other keys. -/
theorem get?_insertNew_of_ne (c : Cache V) {key other : ContentHash}
    (hne : other ≠ key) (value : V) :
    (c.insertNew key value).2.get? other = c.get? other := by
  unfold insertNew
  cases c.get? key with
  | some stored => rfl
  | none =>
    unfold get?
    simp [List.lookup_append, List.lookup_cons, beq_eq_false_iff_ne.mpr hne]

end Cache

/-! ## Caches inside a larger state -/

/-- A part of a state that can be read and replaced. -/
structure Part (σ α : Type) where
  get : σ → α
  set : α → σ → σ

namespace Cache

variable {σ ε V : Type}

/-- The value stored under a key, computed and stored first if there is none.  The computation may
use the cache itself; a value that it stores under the same key counts, and if it fails nothing is
stored in its place. -/
def fetch (part : Part σ (Cache V)) (key : ContentHash) (compute : EStateM ε σ V) :
    EStateM ε σ V := fun s =>
  match (part.get s).get? key with
  | some stored => .ok stored (part.set (part.get s).countHit s)
  | none =>
    match compute (part.set (part.get s).countMiss s) with
    | .error e s => .error e s
    | .ok value s =>
      let (stored, c) := (part.get s).insertNew key value
      .ok stored (part.set c s)

end Cache

end Provenance
