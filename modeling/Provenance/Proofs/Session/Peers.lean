/-
# Sessions that differ in remembered texts

Two sessions that differ only in which texts their cells have cannot be told apart: whatever is asked of
both, they give the same answers and go on to differ in nothing else.  Only the two queries that name
the results in cells, an outline and the list of what a node holds, can show a difference.

The main facts:

* `outcome_written` : what a sink has received of a source;
* `run_peers`, `runAll_peers` : one request, and any run of requests;
* `runAll_placed` : after every run the texts in all cells are right.
-/
import Provenance.Proofs.Session.Placed
import Provenance.Proofs.Session.Run
import Provenance.Proofs.Session.Writing

namespace Provenance

/-- A query names results that are in cells. -/
def Query.showsMemory : Query → Bool
  | .outline _ => true
  | .held => true
  | _ => false

/-- A request names results that are in cells. -/
def Request.showsMemory : Request → Bool
  | .query _ q => q.showsMemory
  | _ => false

namespace Session

/-! ## One query -/

section

variable {nodes : NodeId → Option Source} {s : Source}

/-- The answer for a sink that something has been written to. -/
def report : Except SinkError Unit × Sink SinkError → Answer
  | (.ok _, k) => .written k.written none
  | (.error e, k) => .written k.written (some e)

/-- **What a sink has received of a source** is its pieces, as many as it took before it closed. -/
theorem outcome_written (h : s.Placed nodes) (capacity : Option Nat) {store : Store}
    (hstore : store.Shown nodes) :
    (outcome (written s capacity) store).1 =
        .ok (.written (capacity.elim s.piecesOf s.piecesOf.take)
          (if capacity.any (· < s.piecesOf.length) then some .closed else none)) ∧
      (outcome (written s capacity) store).2.Shown nodes ∧
      store.Alike (outcome (written s capacity) store).2 := by
  let sink : Sink SinkError := { closing := capacity.map fun n => (n, .closed) }
  have hreport : report (outcome (offerAll Sink.put s.piecesOf) sink) =
      .written (capacity.elim s.piecesOf s.piecesOf.take)
        (if capacity.any (· < s.piecesOf.length) then some .closed else none) := by
    cases capacity with
    | none =>
      rw [offerAll_taken fun c hc => by cases hc]
      rfl
    | some n =>
      by_cases hn : n < s.piecesOf.length
      · rw [offerAll_refused n (e := .closed) (by simp [sink]) hn]
        simp [report, sink, hn]
      · rw [offerAll_taken]
        · simp [report, sink, hn, List.take_of_length_le (Nat.not_lt.mp hn)]
        · intro c hc
          obtain rfl := Option.some.inj hc
          simpa [sink] using hn
  have houtcome : outcome (written s capacity) store =
      (.ok (report ((outcome (writeSource Sink.put s) ⟨store, sink⟩).1,
        (outcome (writeSource Sink.put s) ⟨store, sink⟩).2.sink)),
        (outcome (writeSource Sink.put s) ⟨store, sink⟩).2.store) := by
    unfold outcome written
    cases writeSource Sink.put s ⟨store, sink⟩ <;> rfl
  obtain ⟨hresult, hsink, hshown, halike⟩ := writeSource_delivers Sink.put h ⟨store, sink⟩ hstore
  rw [houtcome, hresult, hsink, Prod.mk.eta, hreport]
  exact ⟨rfl, hshown, halike⟩

theorem written_steady (h : s.Placed nodes) (capacity : Option Nat) :
    Steady (Store.Peers nodes) (written s capacity) := by
  intro store store' hstores
  obtain ⟨hresult, hleft, halike⟩ := outcome_written h capacity hstores.left
  obtain ⟨hresult', hright, halike'⟩ := outcome_written h capacity hstores.right
  exact ⟨hresult.trans hresult'.symm, hleft, hright,
    (halike.symm.trans hstores.alike).trans halike'⟩

/-- **A query that names no results in cells** is answered the same. -/
theorem ask_steady (h : s.Placed nodes) {q : Query} (hq : q.showsMemory = false) :
    Steady (Store.Peers nodes) (ask s q) := by
  cases q with
  | text => exact Steady.bind (textOf_renders h).readsSame.act fun t => Steady.pure _
  | size => exact Steady.bind (sizeOf_renders h).readsSame.act fun n => Steady.pure _
  | buffer => exact Steady.bind (bufferOf_renders h).readsSame.act fun bytes => Steady.pure _
  | write capacity => exact written_steady h capacity
  | map options => exact Steady.bind (mapOf_steady h options) fun m => Steady.pure _
  | textAndMap options => exact Steady.bind (textAndMapOf_steady h options) fun found => Steady.pure _
  | positions options places =>
    exact Steady.bind (positionsOf_steady h options places) fun found => Steady.pure _
  | compose options => exact Steady.bind (composedOf_steady h options) fun c => Steady.pure _
  | contentHash => exact Steady.bind (contentHashOf_readsSame h).act fun f => Steady.pure _
  | outline indent => cases hq
  | held => cases hq

end

/-- An answer that is made from a value of the text. -/
theorem Renders.answer {nodes : NodeId → Option Source} {α : Type} {r : Reader α} {v : α}
    (h : Renders nodes r v) (make : α → Answer) {store : Store} (hstore : store.Shown nodes) :
    (outcome
      (do
        let v ← r.act
        pure (make v) : Action Answer) store).1 = .ok (make v) := by
  obtain ⟨hvalue, -, -⟩ := h store hstore
  rw [← hvalue]
  rfl

/-- A query that names results in cells leaves them as they are. -/
theorem ask_of_showsMemory (s : Source) {q : Query} (hq : q.showsMemory = true) (store : Store) :
    (outcome (ask s q) store).2 = store := by
  cases q with
  | outline indent => rfl
  | held => cases s <;> rfl
  | _ => cases hq

/-! ## Requests -/

/-- One request that names no results in cells, if its sources are in play. -/
theorem perform_places (defined : Definitions) {r : Request} (hr : r.showsMemory = false) :
    Places (sourcesOf defined) (fun performed => sourcesOf performed.2) (perform defined r) := by
  -- all requests but a definition leave the definitions as they are
  have hkeep : ∀ answer : Answer, ∀ sources, sourcesOf defined ⊆ sources →
      Places sources (fun performed : Answer × Definitions => sourcesOf performed.2)
        (pure (answer, defined) : Action (Answer × Definitions)) := fun _ _ hsub =>
    Places.pure_of_subset hsub
  cases r with
  | define name plan =>
    refine Places.bind (build_places plan fun _ _ => mem_sourcesOf) fun s => ?_
    exact Places.pure_of_subset (sourcesOf_insert_subset name s defined)
  | query plan q =>
    refine Places.bind (build_places plan fun _ _ => mem_sourcesOf) fun s => ?_
    refine Places.bind (Places.of_steady
      (fun nodes hplaced => ask_steady (hplaced s List.mem_cons_self) hr) fun _ => rfl) fun answer => ?_
    exact hkeep answer _ (List.subset_cons_self _ _)
  | decode t =>
    refine Places.bind (Places.of_steady
      (fun _ _ => (decodeKept_steady t).adaptExcept Fault.decode) fun _ => rfl) fun table => ?_
    exact hkeep _ _ (List.Subset.refl _)
  | stats =>
    refine Agrees.get_bind fun s t ⟨nodes, hpeers, _⟩ => ⟨?_, hkeep _ _ (List.Subset.refl _)⟩
    rw [hpeers.same Store.decodeCache fun _ => rfl, hpeers.same Store.composeCache fun _ => rfl]
  | clear choice =>
    refine Places.bind (Places.of_steady (fun _ _ => Steady.modify fun s t hst => ?_) fun _ => rfl)
      fun _ => hkeep _ _ (List.Subset.refl _)
    exact hst.change (fun _ => by cases choice <;> rfl) (fun _ => by cases choice <;> rfl)
      fun _ => by cases choice <;> rfl
  | setTracing on =>
    refine Places.bind (Places.of_steady (fun _ _ => Steady.modify fun s t hst => ?_) fun _ => rfl)
      fun _ => hkeep _ _ (List.Subset.refl _)
    exact hst.change (f := fun s => { s with tracing := on }) (fun _ => rfl) (fun _ => rfl)
      fun _ => rfl

/-! ## Runs -/

/-- Two sessions have the same definitions, and differ in remembered texts only. -/
structure Peers (s t : Session) : Prop where
  defined : t.defined = s.defined
  inPlay : InPlay (sourcesOf s.defined) s.store t.store

/-- A new session remembers no texts and has no sources. -/
theorem peers_new : Peers {} {} := by
  have hshown : ({} : Store).Shown fun _ => none := by
    constructor
    · intro id child hnode
      cases hnode
    · exact fun _ _ => ⟨rfl, rfl⟩
  exact ⟨rfl, fun _ => none, ⟨hshown, hshown, Store.Alike.refl _⟩, fun x hx => by cases hx⟩

/-- A request starts from a store with nothing told. -/
theorem Peers.start {s t : Session} (h : s.Peers t) :
    InPlay (sourcesOf s.defined) { s.store with notices := [] } { t.store with notices := [] } := by
  obtain ⟨nodes, hpeers, hplaced⟩ := h.inPlay
  exact ⟨nodes, hpeers.change (f := fun s => { s with notices := [] }) (fun _ => rfl) (fun _ => rfl)
    fun _ => rfl, hplaced⟩

/-- What a request comes to, from its outcome. -/
theorem run_eq (session : Session) (r : Request) :
    session.run r =
      match outcome (perform session.defined r) { session.store with notices := [] } with
      | (.ok (answer, defined), s) => (⟨.ok answer, s.notices⟩, ⟨s, defined⟩)
      | (.error e, s) => (⟨.error e, s.notices⟩, ⟨s, session.defined⟩) := by
  unfold outcome Session.run
  cases perform session.defined r { session.store with notices := [] } <;> rfl

variable {s t : Session}

/-- A query that names results in cells leaves the sessions different in remembered texts only. -/
theorem run_query_peers (h : s.Peers t) (plan : Plan) {q : Query} (hq : q.showsMemory = true) :
    (s.run (.query plan q)).2.Peers (t.run (.query plan q)).2 := by
  obtain ⟨hresult, hplay⟩ := build_places plan (fun _ _ => mem_sourcesOf) _ _ h.start
  unfold outcome at hresult hplay
  have hdefined := h.defined
  cases hs : build s.defined plan { s.store with notices := [] } with
  | ok x store =>
    cases ht : build s.defined plan { t.store with notices := [] } with
    | ok y store' =>
      rw [hs, ht] at hresult hplay
      obtain rfl := Except.ok.inj hresult
      rw [← hdefined] at ht
      rw [(run_query_eq hs q).2, (run_query_eq ht q).2, ask_of_showsMemory x hq,
        ask_of_showsMemory x hq]
      exact ⟨hdefined, hplay.subset (List.subset_cons_self _ _)⟩
    | error e store' =>
      rw [hs, ht] at hresult
      cases hresult
  | error e store =>
    cases ht : build s.defined plan { t.store with notices := [] } with
    | ok y store' =>
      rw [hs, ht] at hresult
      cases hresult
    | error e' store' =>
      rw [hs, ht] at hplay
      rw [← hdefined] at ht
      rw [run_query_of_error hs, run_query_of_error ht]
      exact ⟨hdefined, hplay⟩

/-- **One request** leaves sessions that differ in remembered texts only; if it names no results in cells,
it has the same outcome in both. -/
theorem run_peers (h : s.Peers t) (r : Request) :
    (s.run r).2.Peers (t.run r).2 ∧ (r.showsMemory = false → (s.run r).1 = (t.run r).1) := by
  cases hr : r.showsMemory with
  | true =>
    cases r with
    | query plan q => exact ⟨run_query_peers h plan hr, fun hfalse => by cases hfalse⟩
    | _ => cases hr
  | false =>
    obtain ⟨hresult, hplay⟩ := perform_places s.defined hr _ _ h.start
    rw [run_eq, run_eq, h.defined]
    generalize outcome (perform s.defined r) { s.store with notices := [] } = out at hresult hplay
    generalize outcome (perform s.defined r) { t.store with notices := [] } = out' at hresult hplay
    obtain ⟨result, store⟩ := out
    obtain ⟨result', store'⟩ := out'
    obtain rfl : result = result' := hresult
    cases result with
    | ok performed =>
      dsimp only at hplay ⊢
      rw [hplay.notices]
      exact ⟨⟨rfl, hplay.subset (List.subset_append_left _ _)⟩, fun _ => rfl⟩
    | error e =>
      dsimp only at hplay ⊢
      rw [hplay.notices]
      exact ⟨⟨rfl, hplay⟩, fun _ => rfl⟩

/-- **Any run of requests** leaves sessions that differ in remembered texts only; each request that names
no results in cells has the same outcome in both. -/
theorem runAll_peers (h : s.Peers t) (rs : List Request) :
    (s.runAll rs).2.Peers (t.runAll rs).2 ∧
      ∀ (i : Nat) (r : Request), rs[i]? = some r → r.showsMemory = false →
        (s.runAll rs).1[i]? = (t.runAll rs).1[i]? := by
  induction rs generalizing s t with
  | nil => exact ⟨h, fun i r hi => by cases hi⟩
  | cons first rest ih =>
    obtain ⟨hfirst, hsame⟩ := run_peers h first
    obtain ⟨hrest, hothers⟩ := ih hfirst
    refine ⟨hrest, fun i r hi hr => ?_⟩
    cases i with
    | zero =>
      obtain rfl := Option.some.inj hi
      exact congrArg some (hsame hr)
    | succ i => exact hothers i r hi hr

/-- A query about a source that has been defined asks that source. -/
theorem run_query_ref {session : Session} {name : Text} {x : Source}
    (hx : session.defined.lookup name = some x) (q : Query) :
    (session.run (.query (.ref name) q)).1.result =
      (outcome (ask x q) { session.store with notices := [] }).1 := by
  have hbuild : build session.defined (.ref name) { session.store with notices := [] } =
      .ok x { session.store with notices := [] } := by
    rw [build, hx]
    rfl
  exact (run_query_eq hbuild q).1

/-- **After every run the texts in all cells are right**, and the sources are made of the nodes that they
are right for. -/
theorem runAll_placed (rs : List Request) :
    ∃ nodes, (runAll {} rs).2.store.Shown nodes ∧
      ∀ x ∈ sourcesOf (runAll {} rs).2.defined, x.Placed nodes := by
  obtain ⟨nodes, hpeers, hplaced⟩ := (runAll_peers peers_new rs).1.inPlay
  exact ⟨nodes, hpeers.left, hplaced⟩

end Session

end Provenance
