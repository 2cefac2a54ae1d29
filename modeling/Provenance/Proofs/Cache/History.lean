/-
# The history of a content cache

What happens in a cache during a run of requests, one thing after the other: values are asked for, stored
and returned, computations fail, the cache is cleared.  A computation may use the cache itself, so the
requests that it makes happen between the call for its value and the end of that call, to any depth.
What a computation asks for may depend on the answers before; a request says what it came to ask for.

Every moment of a run is a beginning of its history, and the cache at that moment is what this beginning
has made of an empty one.

The main facts:

* `events_spec`, `eventsAll_spec` : a run leaves the cache as its history makes it; a value is stored
  only if there is none, and returned only if it is the one stored;
* `Describes.foldl` : the size and the counts of a cache are read off its history;
* `get?_foldl` : a value that is stored stays until the cache is cleared;
* `runAll_keeps_first` : the first value stored under a key is kept, whatever computations do.
-/
import Mathlib.Data.Finset.Dedup
import Mathlib.Data.Finset.Card
import Mathlib.Data.List.DropRight
import Provenance.Cache.Requests

namespace Provenance

/-- What happens in a content cache. -/
inductive CacheEvent (V : Type) where
  /-- A value is asked for that is to be computed if there is none. -/
  | entered (key : ContentHash)
  | stored (key : ContentHash) (value : V)
  /-- An insertion, or a call for a value that may have to be computed, returns a value. -/
  | returned (key : ContentHash) (value : V)
  /-- A call for a value ends with the error of its computation. -/
  | failed (key : ContentHash) (message : Text)
  | cleared
  deriving DecidableEq, Repr

variable {V : Type}

namespace CacheEvent

/-- What an event makes of a cache. -/
def apply (c : Cache V) : CacheEvent V → Cache V
  | entered key => if (c.get? key).isSome then c.countHit else c.countMiss
  | stored key value => { c with entries := c.entries ++ [(key, value)] }
  | returned _ _ => c
  | failed _ _ => c
  | cleared => {}

/-- A value is asked for. -/
def isEntered : CacheEvent V → Bool
  | entered _ => true
  | _ => false

/-- The cache is cleared. -/
def isCleared : CacheEvent V → Bool
  | cleared => true
  | _ => false

/-- The key and the value that are stored. -/
def entry? : CacheEvent V → Option (ContentHash × V)
  | stored key value => some (key, value)
  | _ => none

/-- A value may be stored if there is none under its key, and returned if it is the one stored. -/
def Fits (c : Cache V) : CacheEvent V → Prop
  | stored key _ => c.get? key = none
  | returned key value => c.get? key = some value
  | _ => True

/-- Each event may happen after those before it. -/
def FitAll (c : Cache V) : List (CacheEvent V) → Prop
  | [] => True
  | e :: rest => e.Fits c ∧ FitAll (e.apply c) rest

/-- The cache after a history. -/
def cacheAfter (past : List (CacheEvent V)) : Cache V := past.foldl apply {}

/-- What has happened since the cache was last cleared. -/
def sinceClear (past : List (CacheEvent V)) : List (CacheEvent V) :=
  past.rtakeWhile fun e => !e.isCleared

/-- The keys and values that were stored. -/
def entriesOf (past : List (CacheEvent V)) : List (ContentHash × V) := past.filterMap entry?

end CacheEvent

namespace CacheRequest

open CacheEvent

/-! ## Histories -/

/-- What happens when a value is inserted. -/
def insertEvents (c : Cache V) (key : ContentHash) (value : V) : List (CacheEvent V) :=
  match c.get? key with
  | some found => [returned key found]
  | none => [stored key value, returned key value]

mutual

/-- What happens during a request. -/
def events (c : Cache V) : CacheRequest V → List (CacheEvent V)
  | get _ => []
  | insert key value => insertEvents c key value
  | compute key value nested failure =>
    match c.get? key with
    | some found => [entered key, returned key found]
    | none =>
      entered key :: eventsAll c.countMiss nested ++
        match failure with
        | some message => [failed key message]
        | none => insertEvents (runAll c.countMiss nested).2 key value
  | stats => []
  | clear => [cleared]

/-- What happens during some requests. -/
def eventsAll (c : Cache V) : List (CacheRequest V) → List (CacheEvent V)
  | [] => []
  | r :: rest => events c r ++ eventsAll (run c r).2 rest

end

/-! ## Calls for a value -/

section Compute

variable {c : Cache V} {key : ContentHash} (value : V) (nested : List (CacheRequest V))

/-- A value that is stored is found. -/
theorem run_compute_of_some {found : V} (h : c.get? key = some found) (failure : Option Text) :
    run c (.compute key value nested failure) = (.computed found none, c.countHit) := by
  unfold run
  simp only [Cache.fetch, Running.cachePart, h]

/-- A computation that fails passes its error on, and leaves the cache as the requests that it has made
left it. -/
theorem run_compute_failing (h : c.get? key = none) (message : Text) :
    run c (.compute key value nested (some message)) =
      (.failed message, (runAll c.countMiss nested).2) := by
  unfold run
  simp only [Cache.fetch, Running.cachePart, h]

/-- A value that has been computed is inserted. -/
theorem run_compute_of_none (h : c.get? key = none) :
    run c (.compute key value nested none) =
      (.computed ((runAll c.countMiss nested).2.insertNew key value).1
          (some (runAll c.countMiss nested).1),
        ((runAll c.countMiss nested).2.insertNew key value).2) := by
  unfold run
  simp only [Cache.fetch, Running.cachePart, h]

end Compute

/-- What happens when a value is found. -/
theorem events_compute_of_some {c : Cache V} {key : ContentHash} {found : V}
    (h : c.get? key = some found) (value : V) (nested : List (CacheRequest V))
    (failure : Option Text) :
    events c (.compute key value nested failure) = [entered key, returned key found] := by
  unfold events
  simp only [h]

/-- What happens when a value has to be computed. -/
theorem events_compute_of_none {c : Cache V} {key : ContentHash} (h : c.get? key = none) (value : V)
    (nested : List (CacheRequest V)) (failure : Option Text) :
    events c (.compute key value nested failure) =
      entered key :: eventsAll c.countMiss nested ++
        match failure with
        | some message => [failed key message]
        | none => insertEvents (runAll c.countMiss nested).2 key value := by
  conv_lhs => unfold events
  simp only [h]

/-! ## A run and its history -/

theorem fitAll_append {c : Cache V} {xs ys : List (CacheEvent V)} :
    FitAll c (xs ++ ys) ↔ FitAll c xs ∧ FitAll (xs.foldl apply c) ys := by
  induction xs generalizing c with
  | nil => simp [FitAll]
  | cons e rest ih => rw [List.cons_append, FitAll, FitAll, ih, List.foldl_cons, and_assoc]

/-- An insertion stores its value only if there is none, and returns the one stored. -/
theorem insertEvents_spec (c : Cache V) (key : ContentHash) (value : V) :
    (insertEvents c key value).foldl apply c = (c.insertNew key value).2 ∧
      FitAll c (insertEvents c key value) ∧
      ∃ before, insertEvents c key value = before ++ [returned key (c.insertNew key value).1] := by
  have hinserted := c.get?_insertNew key value
  unfold insertEvents Cache.insertNew at *
  cases h : c.get? key with
  | some found => exact ⟨rfl, ⟨h, trivial⟩, [], rfl⟩
  | none =>
    rw [h] at hinserted
    exact ⟨rfl, ⟨h, hinserted, trivial⟩, [stored key value], rfl⟩

mutual

/-- **A request leaves the cache as its history makes it**, and everything in that history fits. -/
theorem events_spec (c : Cache V) (r : CacheRequest V) :
    (events c r).foldl apply c = (run c r).2 ∧ FitAll c (events c r) := by
  cases r with
  | get key =>
    rw [events, run_get]
    exact ⟨rfl, trivial⟩
  | insert key value =>
    rw [events, run_insert]
    exact ⟨(insertEvents_spec c key value).1, (insertEvents_spec c key value).2.1⟩
  | compute key value nested failure =>
    cases h : c.get? key with
    | some found =>
      have happly : (entered key : CacheEvent V).apply c = c.countHit := by
        rw [apply, h, Option.isSome_some, if_pos rfl]
      rw [events_compute_of_some h, run_compute_of_some value nested h, List.foldl_cons, happly,
        FitAll, happly]
      exact ⟨rfl, trivial, h, trivial⟩
    | none =>
      have happly : (entered key : CacheEvent V).apply c = c.countMiss := by
        rw [apply, h, Option.isSome_none, if_neg Bool.false_ne_true]
      obtain ⟨hrun, hfit⟩ := eventsAll_spec c.countMiss nested
      rw [events_compute_of_none h]
      cases failure with
      | some message =>
        rw [run_compute_failing value nested h, List.cons_append, List.foldl_cons, happly,
          List.foldl_append, hrun, FitAll, happly, fitAll_append]
        exact ⟨rfl, trivial, hfit, trivial, trivial⟩
      | none =>
        obtain ⟨hinsert, hfits, -⟩ := insertEvents_spec (runAll c.countMiss nested).2 key value
        rw [run_compute_of_none value nested h, List.cons_append, List.foldl_cons, happly,
          List.foldl_append, hrun, FitAll, happly, fitAll_append, hrun]
        exact ⟨hinsert, trivial, hfit, hfits⟩
  | stats =>
    unfold run events
    exact ⟨rfl, trivial⟩
  | clear =>
    unfold run events
    exact ⟨rfl, trivial, trivial⟩

/-- The same for some requests. -/
theorem eventsAll_spec (c : Cache V) (rs : List (CacheRequest V)) :
    (eventsAll c rs).foldl apply c = (runAll c rs).2 ∧ FitAll c (eventsAll c rs) := by
  cases rs with
  | nil =>
    rw [eventsAll, runAll]
    exact ⟨rfl, trivial⟩
  | cons r rest =>
    obtain ⟨hfirst, hfits⟩ := events_spec c r
    obtain ⟨hrest, hrestFits⟩ := eventsAll_spec (run c r).2 rest
    rw [eventsAll, runAll, List.foldl_append, hfirst, fitAll_append, hfirst]
    exact ⟨hrest, hfits, hrestFits⟩

end

end CacheRequest

namespace CacheEvent

/-! ## What a history says of the cache -/

/-- A cache is as its history says: the entries are those stored since it was last cleared, under
different keys, and the counts are those of the calls since then. -/
structure Describes (past : List (CacheEvent V)) (c : Cache V) : Prop where
  entries : c.entries = entriesOf (sinceClear past)
  nodup : (c.entries.map Prod.fst).Nodup
  counts : c.hits + c.misses = (sinceClear past).countP isEntered

theorem describes_nil : Describes [] ({} : Cache V) := ⟨rfl, List.nodup_nil, rfl⟩

theorem sinceClear_concat (past : List (CacheEvent V)) (e : CacheEvent V) :
    sinceClear (past ++ [e]) = if e.isCleared then [] else sinceClear past ++ [e] := by
  unfold sinceClear
  rw [List.rtakeWhile_concat]
  cases e.isCleared <;> rfl

theorem entriesOf_concat (past : List (CacheEvent V)) (e : CacheEvent V) :
    entriesOf (past ++ [e]) = entriesOf past ++ e.entry?.toList := by
  unfold entriesOf
  rw [List.filterMap_append, List.filterMap_cons]
  cases e.entry? <;> rfl

/-- A key without a value is none of those stored. -/
theorem not_mem_keys_of_get?_eq_none {c : Cache V} {key : ContentHash} (h : c.get? key = none) :
    key ∉ c.entries.map Prod.fst := by
  intro hmem
  obtain ⟨entry, hentry, rfl⟩ := List.mem_map.mp hmem
  exact absurd (List.lookup_eq_none_iff.mp h entry hentry) (by simp)

/-- An event that does not clear the cache adds at most one entry, behind all others. -/
theorem entries_apply {e : CacheEvent V} (he : e.isCleared = false) (c : Cache V) :
    (e.apply c).entries = c.entries ++ e.entry?.toList := by
  cases e with
  | entered key =>
    rw [apply]
    split <;> exact (List.append_nil _).symm
  | stored key value => rfl
  | returned | failed => exact (List.append_nil _).symm
  | cleared => cases he

/-- An event that does not clear the cache is counted if it is a call for a value. -/
theorem counts_apply {e : CacheEvent V} (he : e.isCleared = false) (c : Cache V) :
    (e.apply c).hits + (e.apply c).misses = c.hits + c.misses + [e].countP isEntered := by
  cases e with
  | entered key =>
    rw [apply]
    split
    · exact Nat.add_right_comm _ _ _
    · rfl
  | stored | returned | failed => rfl
  | cleared => cases he

/-- **One event** leaves the cache as its history says. -/
theorem Describes.apply {past : List (CacheEvent V)} {c : Cache V} (h : Describes past c)
    {e : CacheEvent V} (hfit : e.Fits c) : Describes (past ++ [e]) (e.apply c) := by
  by_cases he : e.isCleared = true
  · have hsince : sinceClear (past ++ [e]) = [] := by rw [sinceClear_concat, if_pos he]
    have hcache : e.apply c = {} := by
      cases e with
      | cleared => rfl
      | _ => cases he
    rw [hcache]
    exact ⟨by rw [hsince]; rfl, List.nodup_nil, by rw [hsince]; rfl⟩
  · have hsince : sinceClear (past ++ [e]) = sinceClear past ++ [e] := by
      rw [sinceClear_concat, if_neg he]
    have he := Bool.eq_false_of_not_eq_true he
    have hentries := entries_apply he c
    refine ⟨?_, ?_, ?_⟩
    · rw [hentries, hsince, entriesOf_concat, h.entries]
    · rw [hentries]
      cases e with
      | stored key value =>
        rw [List.map_append, List.nodup_append]
        refine ⟨h.nodup, List.nodup_singleton _, ?_⟩
        rintro k hk k' hk' rfl
        rw [List.mem_singleton.mp hk'] at hk
        exact not_mem_keys_of_get?_eq_none hfit hk
      | entered | returned | failed => exact (List.append_nil c.entries).symm ▸ h.nodup
      | cleared => cases he
    · rw [counts_apply he, hsince, List.countP_append, h.counts]

/-- **Events that fit** leave the cache as its history says. -/
theorem Describes.foldl {past : List (CacheEvent V)} {c : Cache V} (h : Describes past c)
    {es : List (CacheEvent V)} (hfit : FitAll c es) :
    Describes (past ++ es) (es.foldl CacheEvent.apply c) := by
  induction es generalizing past c with
  | nil => rwa [List.append_nil]
  | cons e rest ih =>
    rw [List.append_cons]
    exact ih (h.apply hfit.1) hfit.2

/-- **A value that is stored stays** until the cache is cleared. -/
theorem get?_foldl {c : Cache V} {key : ContentHash} {value : V} (h : c.get? key = some value)
    {es : List (CacheEvent V)} (hes : ∀ e ∈ es, e.isCleared = false) :
    (es.foldl apply c).get? key = some value := by
  induction es generalizing c with
  | nil => exact h
  | cons e rest ih =>
    obtain ⟨he, hrest⟩ := List.forall_mem_cons.mp hes
    refine ih ?_ hrest
    -- what is added stands behind, so that it is not found first
    unfold Cache.get? at h ⊢
    rw [entries_apply he, List.lookup_append, h, Option.some_or]

/-- The number of different keys that were stored since the cache was last cleared. -/
theorem Describes.size {past : List (CacheEvent V)} {c : Cache V} (h : Describes past c) :
    c.size = ((entriesOf (sinceClear past)).map Prod.fst).toFinset.card := by
  rw [← h.entries, List.toFinset_card_of_nodup h.nodup, List.length_map]
  rfl

end CacheEvent

namespace CacheRequest

open CacheEvent

/-- How a request to a cache ends.  An insertion, or a call for a value, ends with a value being returned.
A call that does not find a value, and whose computation fails, ends with the error of the computation;
nothing has happened during it but what the requests of the computation did. -/
def Ended (c : Cache V) : CacheRequest V → Prop
  | get key => run c (.get key) = (.stored (c.get? key), c)
  | insert key value => ∃ stored before, (run c (.insert key value)).1 = .stored (some stored) ∧
      events c (.insert key value) = before ++ [returned key stored]
  | compute key value nested failure =>
    match c.get? key, failure with
    | none, some message =>
      run c (.compute key value nested failure) = (.failed message, (runAll c.countMiss nested).2) ∧
        events c (.compute key value nested failure) =
          entered key :: eventsAll c.countMiss nested ++ [failed key message]
    | _, _ => ∃ stored answers before,
      (run c (.compute key value nested failure)).1 = .computed stored answers ∧
        events c (.compute key value nested failure) = entered key :: before ++ [returned key stored]
  | stats => run c .stats = (.stats c.size c.hits c.misses, c)
  | clear => run c .clear = (.cleared, {})

/-- Every request ends so. -/
theorem ended (c : Cache V) (r : CacheRequest V) : r.Ended c := by
  cases r with
  | get key => exact run_get c key
  | insert key value =>
    obtain ⟨-, -, before, hbefore⟩ := insertEvents_spec c key value
    refine ⟨(c.insertNew key value).1, before, ?_, ?_⟩
    · rw [run_insert]
    · rw [events, hbefore]
  | compute key value nested failure =>
    cases h : c.get? key with
    | some found =>
      simp only [Ended, h]
      refine ⟨found, none, [], ?_, events_compute_of_some h value nested failure⟩
      rw [run_compute_of_some value nested h]
    | none =>
      have hevents := events_compute_of_none h value nested failure
      cases failure with
      | some message =>
        simp only [Ended, h]
        exact ⟨run_compute_failing value nested h message, hevents⟩
      | none =>
        simp only [Ended, h]
        obtain ⟨-, -, before, hbefore⟩ := insertEvents_spec (runAll c.countMiss nested).2 key value
        refine ⟨((runAll c.countMiss nested).2.insertNew key value).1,
          some (runAll c.countMiss nested).1, eventsAll c.countMiss nested ++ before, ?_, ?_⟩
        · rw [run_compute_of_none value nested h]
        · rw [hevents, hbefore, List.cons_append, List.cons_append, List.append_assoc]
  | stats =>
    unfold Ended run
    rfl
  | clear =>
    unfold Ended run
    rfl

/-- **The first value is kept.**  Requests are made of one cache, and the computations of values make
requests of it themselves, to any depth, clear it, and fail.  Whatever the cache is when a request is made,
its history leaves the cache as the request does, and the request ends as it should.  At every moment of
the run the size is the number of different keys stored since the cache was last cleared, and hits and
misses are together the number of calls since then; a value that is returned is the one stored; and what
is stored under a key stays until the cache is cleared. -/
theorem runAll_keeps_first (rs : List (CacheRequest V)) :
    (∀ (c : Cache V) (r : CacheRequest V), (events c r).foldl apply c = (run c r).2 ∧ r.Ended c) ∧
    cacheAfter (eventsAll {} rs) = (runAll {} rs).2 ∧
    ∀ past middle, past ++ middle <+: eventsAll {} rs →
      (cacheAfter past).size = ((entriesOf (sinceClear past)).map Prod.fst).toFinset.card ∧
      (cacheAfter past).hits + (cacheAfter past).misses = (sinceClear past).countP isEntered ∧
      (∀ key value, past.getLast? = some (returned key value) →
        (cacheAfter past).get? key = some value) ∧
      ((∀ e ∈ middle, e.isCleared = false) → ∀ key value, (cacheAfter past).get? key = some value →
        (cacheAfter (past ++ middle)).get? key = some value) := by
  obtain ⟨hrun, hfit⟩ := eventsAll_spec {} rs
  refine ⟨fun c r => ⟨(events_spec c r).1, ended c r⟩, hrun, ?_⟩
  rintro past middle ⟨later, hhistory⟩
  rw [← hhistory, List.append_assoc, fitAll_append] at hfit
  have hdescribes := describes_nil.foldl hfit.1
  refine ⟨hdescribes.size, hdescribes.counts, fun key value hlast => ?_,
    fun hmiddle key value hvalue => ?_⟩
  · obtain ⟨before, rfl⟩ := List.getLast?_eq_some_iff.mp hlast
    obtain ⟨-, hreturned, -⟩ := fitAll_append.mp hfit.1
    unfold cacheAfter
    rw [List.foldl_append]
    exact hreturned
  · unfold cacheAfter
    rw [List.foldl_append]
    exact get?_foldl hvalue hmiddle

/-- A computation stores a value under another key, clears the cache, asks for its own key, and fails
inside once; the value it was to give comes too late. -/
theorem runAll_keeps_first_reentrant :
    let nested : List (CacheRequest Nat) :=
      [.insert "a" 1, .clear, .compute "k" 2 [.compute "b" 3 [.insert "a" 4] (some "no")] none]
    let rs : List (CacheRequest Nat) := [.compute "k" 5 nested none, .stats, .get "k"]
    (cacheAfter (eventsAll {} rs)).size = 2 ∧ (cacheAfter (eventsAll {} rs)).get? "k" = some 2 := by
  intro nested rs
  obtain ⟨-, -, hmoments⟩ := runAll_keeps_first rs
  have hprefix : eventsAll {} rs ++ [] <+: eventsAll {} rs := by rw [List.append_nil]
  obtain ⟨hsize, -, hreturned, hkept⟩ := hmoments (eventsAll {} rs) [] hprefix
  refine ⟨hsize.trans (by decide +kernel), ?_⟩
  rw [← List.append_nil (eventsAll {} rs)]
  exact hkept (by simp) "k" 2 (hreturned "k" 2 (by decide +kernel))

end CacheRequest

end Provenance
