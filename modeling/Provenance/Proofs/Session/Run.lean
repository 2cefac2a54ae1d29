/-
# Memory does not show

Whatever has been asked of a session, in whatever order, whichever requests failed and whenever caches
were cleared: a query is answered as if nothing were remembered, as long as no two streams of bytes
that have been hashed share a digest and the texts in the requests are well formed.  Queries that compose
their source are so answered if no generated text has been hashed that may inherit a further source; the
text in the answer is that of the source in any case.

The main facts:

* `ask_gives` : one query with faithful memory;
* `runAll_upheld` : every run keeps what every way of making a node keeps;
* `runAll_backed` : memory is faithful after every run;
* `runAll_transparent` : in every run, queries are answered as they are without memory;
* `runAll_inherited` : a run in which memory shows.
-/
import Provenance.Proofs.Session.Plan
import Provenance.Session.Run

namespace Provenance

/-- The answer to a query about a source without memory, for the queries that are about nothing but the
source. -/
def Source.answer (s : Source) : Query → Option (Except Fault Answer)
  | .text => some (.ok (.text s.text))
  | .size => some (.ok (.size s.size))
  | .buffer => some (.ok (.buffer s.bytes))
  | .map options => some ((s.mapWith options).map .map)
  | .textAndMap options => some ((s.mapWith options).map (.textAndMap s.text))
  | .positions options places => some ((s.positionsWith options places).map .positions)
  | .compose options => some (((s.compose options.limit).mapError .compose).map .composed)
  | .contentHash => some (.ok (.contentHash s.contentHash))
  | .write _ => none
  | .outline _ => none
  | .held => none

/-- Whether a query composes its source. -/
def Query.composes : Query → Bool
  | .map _ | .textAndMap _ | .positions _ _ | .compose _ => true
  | .text | .size | .buffer | .write _ | .contentHash | .outline _ | .held => false

/-- An answer comes with a text, if it is one that does. -/
def Query.ComesWith (t : Text) : Query → Answer → Prop
  | .compose _, answer => ∃ c, answer = .composed c ∧ c.text = t
  | .textAndMap _, answer => ∃ m, answer = .textAndMap t m
  | _, _ => True

namespace Session

variable {hashed : List (List Text)}

/-! ## One query -/

/-- An answer that is made from a result. -/
theorem Attains.answer {nodes : NodeId → Option Source} {α : Type} {m : Action α} {p p' : Prop}
    {A : α → Prop} {B : Answer → Prop} {x : Except Fault α} {make : α → Answer}
    (h : Attains hashed (Store.Serves hashed nodes) m p A x) (hp : p' → p)
    (hB : ∀ v, A v → B (make v)) :
    Gives hashed (Store.Serves hashed nodes)
      (do
        let v ← m
        pure (make v)) fun r => (∀ v, r = .ok v → B v) ∧
          (p' → ∀ answer, some (x.map make) = some answer → r = answer) := by
  refine Gives.imp (Attains.bind h fun v => Attains.pure (hB v)) ?_
  rintro r ⟨hr, hresult⟩
  refine ⟨hr, fun hp' answer hanswer => ?_⟩
  rw [hresult (hp hp'), ← Option.some.inj hanswer]
  cases x <;> rfl

/-- Writing a source to a sink keeps faithful memory. -/
theorem written_gives {nodes : NodeId → Option Source} {s : Source} (h : s.Held nodes)
    (capacity : Option Nat) :
    Gives hashed (Store.Serves hashed nodes) (written s capacity) fun _ => True := by
  intro store hstore
  let sink : Sink SinkError := { closing := capacity.map fun n => (n, .closed) }
  have hwrite : Gives hashed (fun w : Writing (Sink SinkError) => w.store.Serves hashed nodes)
      (writeSource Sink.put s) _ := writeSource_gives h
  have hrun := hwrite ⟨store, sink⟩ hstore
  unfold outcome at hrun ⊢
  unfold written
  cases hr : writeSource Sink.put s ⟨store, sink⟩ with
  | ok u w =>
    rw [hr] at hrun
    exact hrun
  | error e w =>
    rw [hr] at hrun
    exact hrun

/-- **One query with faithful memory** comes with the text of its source, and is answered as it is
without memory: if it composes the source, as long as no generated text has been hashed that may inherit
a further source. -/
theorem ask_gives (hfree : ContentHash.CollisionFree hashed) {nodes : NodeId → Option Source} {s : Source}
    (h : s.Held nodes) (q : Query) :
    Gives hashed (Store.Serves hashed nodes) (ask s q) fun r =>
      (∀ v, r = .ok v → q.ComesWith s.text v) ∧
        ((q.composes = true → ContentHash.Overt hashed) →
          ∀ answer, s.answer q = some answer → r = answer) := by
  -- the answers that are read are made from what is known in any case
  have hread : ∀ {α : Type} {m : Action α} {v : α} {make : α → Answer} {p' : Prop},
      Yields hashed (Store.Serves hashed nodes) m (.ok v) → Gives hashed (Store.Serves hashed nodes)
        (do
          let v ← m
          pure (make v)) fun r => (∀ v, r = .ok v → True) ∧
            (p' → ∀ answer, some (.ok (make v)) = some answer → r = answer) := fun hm =>
    Attains.answer (Attains.of_yields (p := True) hm fun _ _ => trivial) (fun _ => trivial)
      fun _ h => h
  cases q with
  | text => exact hread (textOf_reads h).act_eq
  | size => exact hread (sizeOf_reads h).act_eq
  | buffer => exact hread (bufferOf_reads h).act_eq
  | write capacity =>
    exact Gives.imp (written_gives h capacity) fun _ _ =>
      ⟨fun _ _ => trivial, fun _ _ ha => by cases ha⟩
  | map options =>
    exact Attains.answer (mapOf_attains hfree h options) (fun hp => hp rfl) fun _ _ => trivial
  | textAndMap options =>
    have hmap : (s.mapWith options).map (Answer.textAndMap s.text) =
        ((s.mapWith options).map fun m => (s.text, m)).map
          fun found => Answer.textAndMap found.1 found.2 := by
      cases s.mapWith options <;> rfl
    rw [Source.answer, hmap]
    refine Attains.answer (textAndMapOf_attains hfree h options) (fun hp => hp rfl) ?_
    exact fun found htext => ⟨found.2, by rw [htext]⟩
  | positions options places =>
    exact Attains.answer (positionsOf_attains hfree h options places) (fun hp => hp rfl)
      fun _ _ => trivial
  | compose options =>
    exact Attains.answer (composedOf_attains hfree h options) (fun hp => hp rfl)
      fun c htext => ⟨c, rfl, htext⟩
  | contentHash => exact hread (Reads.act_eq (Reads.imp (contentHashOf_reads h) fun _ hf => hf.1))
  | outline indent =>
    exact Gives.get_bind fun _ _ => Gives.pure fun _ => ⟨fun _ _ => trivial, fun _ _ ha => by cases ha⟩
  | held =>
    apply Gives.get_bind
    intro store _
    cases s with
    | _ => exact Gives.pure fun _ => ⟨fun _ _ => trivial, fun _ _ ha => by cases ha⟩

/-! ## Runs -/

/-- The sources that have been defined. -/
def sourcesOf (defined : Definitions) : List Source := defined.map Prod.snd

theorem mem_sourcesOf {defined : Definitions} {name : Text} {s : Source}
    (h : defined.lookup name = some s) : s ∈ sourcesOf defined :=
  List.mem_map_of_mem (mem_of_lookup h)

/-- A definition brings in its source. -/
theorem sourcesOf_insert_subset (name : Text) (s : Source) (defined : Definitions) :
    sourcesOf (Assoc.insert name s defined) ⊆ s :: sourcesOf defined := by
  intro t ht
  obtain ⟨e, he, rfl⟩ := List.mem_map.mp ht
  rcases mem_of_mem_insert he with rfl | he
  · exact List.mem_cons_self
  · exact List.mem_cons_of_mem _ (List.mem_map_of_mem he)

/-- An empty cache is faithful to everything. -/
theorem clearCaches_gives {nodes : NodeId → Option Source} (choice : CacheChoice) :
    Gives hashed (Store.Serves hashed nodes) (modify (clearCaches choice) : Action PUnit)
      fun _ => True := by
  refine fun store hstore => ⟨?_, ?_, fun _ => trivial⟩
  · cases choice <;> exact fun _ h => h
  · cases choice with
    | decoded =>
      exact hstore.of_eq rfl rfl (List.Subset.refl _) (fun _ _ h => by cases h) fun _ _ h => h
    | composed =>
      exact hstore.of_eq rfl rfl (List.Subset.refl _) (fun _ _ h => h) fun _ _ h => by cases h
    | both =>
      exact hstore.of_eq rfl rfl (List.Subset.refl _) (fun _ _ h => by cases h)
        fun _ _ h => by cases h

section

variable {S : List Source → Store → Prop}

/-- One request keeps what is said of the sources that are defined, whether it fails or not. -/
theorem perform_brings (hfree : ContentHash.CollisionFree hashed) (hS : Upheld hashed S)
    (defined : Definitions) {r : Request} (hr : r.Formed) :
    Brings S (sourcesOf defined) (fun performed => sourcesOf performed.2) (perform defined r) := by
  -- all requests but a definition leave the definitions as they are
  have hkeep : ∀ answer : Answer, ∀ sources, sourcesOf defined ⊆ sources →
      Brings S sources (fun performed : Answer × Definitions => sourcesOf performed.2)
        (pure (answer, defined) : Action (Answer × Definitions)) := fun answer sources hsub =>
    Brings.pure_of_subset hS.hereditary hsub
  cases r with
  | define name plan =>
    refine Brings.bind hS.hereditary
      (build_brings hfree hS plan hr fun _ _ => mem_sourcesOf) fun s => ?_
    exact Brings.pure_of_subset hS.hereditary (sourcesOf_insert_subset name s defined)
  | query plan q =>
    refine Brings.bind hS.hereditary
      (build_brings hfree hS plan hr fun _ _ => mem_sourcesOf) fun s => ?_
    refine Brings.bind hS.hereditary (hS.silent (fun nodes hheld =>
      ask_gives hfree (hheld s List.mem_cons_self) q) fun _ => rfl) fun answer => ?_
    exact hkeep answer _ (List.subset_cons_self _ _)
  | decode t =>
    refine Brings.bind hS.hereditary (hS.silent (fun nodes _ =>
      Yields.adaptExcept (decodeKept_yields hfree t) Fault.decode) fun _ => rfl) fun table => ?_
    exact hkeep _ _ (List.Subset.refl _)
  | stats =>
    refine Brings.bind hS.hereditary (hS.silent (Q := fun _ => True) (fun nodes _ => ?_) fun _ => rfl)
      fun s => hkeep _ _ (List.Subset.refl _)
    exact fun store hstore => ⟨fun _ h => h, hstore, fun _ => trivial⟩
  | clear choice =>
    exact Brings.bind hS.hereditary
      (hS.silent (fun nodes _ => clearCaches_gives choice) fun _ => rfl)
      fun _ => hkeep _ _ (List.Subset.refl _)
  | setTracing on =>
    refine Brings.bind hS.hereditary (hS.silent (Q := fun _ => True) (fun nodes _ => ?_) fun _ => rfl)
      fun _ => hkeep _ _ (List.Subset.refl _)
    refine fun store hstore => ⟨fun _ h => h, ?_, fun _ => trivial⟩
    exact hstore.of_eq rfl rfl (List.Subset.refl _) (fun _ _ h => h) fun _ _ h => h

/-- A request starts from a store with nothing told. -/
theorem Upheld.start (hS : Upheld hashed S) {session : Session}
    (h : S (sourcesOf session.defined) session.store) :
    S (sourcesOf session.defined) { session.store with notices := [] } := by
  have hsilent : Brings S (sourcesOf session.defined) (fun _ => [])
      (modify fun store => { store with notices := [] } : Action PUnit) := by
    refine hS.silent (Q := fun _ => True) (fun nodes _ store hstore => ?_) fun _ => rfl
    refine ⟨fun _ h => h, ?_, fun _ => trivial⟩
    exact hstore.of_eq rfl rfl (List.Subset.refl _) (fun _ _ h => h) fun _ _ h => h
  exact (hsilent session.store h).2

/-- **One request keeps what is said of the sources of a session**, and forgets nothing that has been
hashed. -/
theorem run_upheld (hfree : ContentHash.CollisionFree hashed) (hS : Upheld hashed S)
    {session : Session} (h : S (sourcesOf session.defined) session.store) {r : Request}
    (hr : r.Formed) :
    session.store.hashed ⊆ (session.run r).2.store.hashed ∧
      S (sourcesOf (session.run r).2.defined) (session.run r).2.store := by
  obtain ⟨hlog, hend⟩ := perform_brings hfree hS session.defined hr _ (hS.start h)
  unfold outcome at hlog hend
  unfold Session.run
  cases hout : perform session.defined r { session.store with notices := [] } with
  | ok performed t =>
    rw [hout] at hlog hend
    exact ⟨hlog, hS.hereditary _ _ _ hend (List.subset_append_left _ _)⟩
  | error e t =>
    rw [hout] at hlog hend
    exact ⟨hlog, hend⟩

/-- **Every run keeps what is said of the sources of a session**, and forgets nothing that has been
hashed. -/
theorem runAll_upheld (hfree : ContentHash.CollisionFree hashed) (hS : Upheld hashed S)
    {session : Session} (h : S (sourcesOf session.defined) session.store) {rs : List Request}
    (hrs : ∀ r ∈ rs, r.Formed) :
    session.store.hashed ⊆ (session.runAll rs).2.store.hashed ∧
      S (sourcesOf (session.runAll rs).2.defined) (session.runAll rs).2.store := by
  induction rs generalizing session with
  | nil => exact ⟨List.Subset.refl _, h⟩
  | cons r rest ih =>
    obtain ⟨hr, hrest⟩ := List.forall_mem_cons.mp hrs
    obtain ⟨hfirst, hkept⟩ := run_upheld hfree hS h hr
    obtain ⟨hothers, hend⟩ := ih hkept hrest
    exact ⟨fun _ hmem => hothers (hfirst hmem), hend⟩

end

/-- One request keeps the sources of a session in play. -/
theorem run_backed (hfree : ContentHash.CollisionFree hashed) {session : Session}
    (h : Backed hashed (sourcesOf session.defined) session.store) {r : Request} (hr : r.Formed) :
    session.store.hashed ⊆ (session.run r).2.store.hashed ∧
      Backed hashed (sourcesOf (session.run r).2.defined) (session.run r).2.store :=
  run_upheld hfree (backed_upheld hfree) h hr

/-- Every run keeps the sources of a session in play. -/
theorem runAll_backed (hfree : ContentHash.CollisionFree hashed) {session : Session}
    (h : Backed hashed (sourcesOf session.defined) session.store) {rs : List Request}
    (hrs : ∀ r ∈ rs, r.Formed) :
    session.store.hashed ⊆ (session.runAll rs).2.store.hashed ∧
      Backed hashed (sourcesOf (session.runAll rs).2.defined) (session.runAll rs).2.store :=
  runAll_upheld hfree (backed_upheld hfree) h hrs

/-- A new session remembers nothing and has no sources. -/
theorem backed_new (hashed : List (List Text)) :
    Backed hashed (sourcesOf ({} : Session).defined) ({} : Session).store := by
  refine ⟨fun _ => none, ⟨fun id _ => ⟨rfl, rfl⟩, fun _ => ⟨?_, ?_, ?_⟩⟩, ?_⟩
  · exact fun id child h => by cases h
  · exact fun key table h => by cases h
  · exact fun key c h => by cases h
  · exact fun s h => by cases h

/-- Everything that a session remembers is what would be computed without memory, and its sources are
made of the nodes that it is remembered for. -/
def Faithful (session : Session) : Prop :=
  ∃ nodes, session.store.Faithful session.store.hashed nodes ∧
    ∀ s ∈ sourcesOf session.defined, s.Held nodes

/-- A query is answered by building the source and asking it. -/
theorem run_query_eq {session : Session} {plan : Plan} {s : Source} {store : Store}
    (hbuild : build session.defined plan { session.store with notices := [] } = .ok s store)
    (q : Query) :
    (session.run (.query plan q)).1.result = (outcome (ask s q) store).1 ∧
      (session.run (.query plan q)).2 = ⟨(outcome (ask s q) store).2, session.defined⟩ := by
  have hperform : perform session.defined (.query plan q) { session.store with notices := [] } =
      (do
        let answer ← ask s q
        pure (answer, session.defined) : Action (Answer × Definitions)) store := by
    simp only [perform, bind, EStateM.bind, hbuild]
  unfold Session.run
  rw [hperform]
  simp only [bind, EStateM.bind, outcome]
  cases ask s q store <;> exact ⟨rfl, rfl⟩

/-- A query about a source that cannot be built fails as building does. -/
theorem run_query_of_error {session : Session} {plan : Plan} {e : Fault} {store : Store}
    (hbuild : build session.defined plan { session.store with notices := [] } = .error e store)
    (q : Query) :
    session.run (.query plan q) = (⟨.error e, store.notices⟩, ⟨store, session.defined⟩) := by
  have hperform : perform session.defined (.query plan q) { session.store with notices := [] } =
      .error e store := by
    simp only [perform, bind, EStateM.bind, hbuild]
  unfold Session.run
  rw [hperform]

/-- A query defines nothing. -/
theorem defined_run_query (session : Session) (plan : Plan) (q : Query) :
    (session.run (.query plan q)).2.defined = session.defined := by
  cases hbuild : build session.defined plan { session.store with notices := [] } with
  | ok s store => rw [(run_query_eq hbuild q).2]
  | error e store => rw [run_query_of_error hbuild]

/-- **A query after a run** comes with the text of its source, and is answered as it is without
memory. -/
theorem result_run_query (hfree : ContentHash.CollisionFree hashed) {session : Session}
    (h : Backed hashed (sourcesOf session.defined) session.store) {plan : Plan} (hplan : plan.Formed)
    {q : Query} {s : Source} {store : Store}
    (hbuild : build session.defined plan { session.store with notices := [] } = .ok s store)
    (hlog : (session.run (.query plan q)).2.store.hashed ⊆ hashed) :
    (∀ v, (session.run (.query plan q)).1.result = .ok v → q.ComesWith s.text v) ∧
      ((q.composes = true → ContentHash.Overt hashed) → ∀ answer, s.answer q = some answer →
        (session.run (.query plan q)).1.result = answer) := by
  obtain ⟨-, hbuilt⟩ := build_builds hfree plan hplan (fun _ _ => mem_sourcesOf) _
    ((backed_upheld hfree).start h)
  unfold outcome at hbuilt
  rw [hbuild] at hbuilt
  obtain ⟨nodes, hserves, hheld⟩ := hbuilt
  obtain ⟨hresult, hafter⟩ := run_query_eq hbuild q
  obtain ⟨-, -, hask⟩ := ask_gives hfree (hheld s List.mem_cons_self) q store hserves
  rw [hresult]
  rw [hafter] at hlog
  exact hask hlog

/-- There is one outcome for each request. -/
theorem length_runAll (session : Session) (rs : List Request) :
    (session.runAll rs).1.length = rs.length := by
  induction rs generalizing session with
  | nil => rfl
  | cons r rest ih =>
    rw [List.length_cons, ← ih (session.run r).2]
    rfl

/-- The outcome of a request depends on those before it only. -/
theorem getElem?_runAll (session : Session) (past later : List Request) (r : Request) :
    (session.runAll (past ++ r :: later)).1[past.length]? =
      some ((session.runAll past).2.run r).1 := by
  rw [runAll_append, ← length_runAll session past, List.getElem?_append_right (Nat.le_refl _),
    Nat.sub_self]
  rfl

/-- **Memory does not show.**  In a run of well-formed requests, whatever they are and whichever of them
fail, every query about a source is answered as it is without memory, and everything that is remembered
after the run is what would be computed without memory, as long as no two streams of bytes that have
been hashed in the run share a digest.  For the queries that compose their source, and for the composed
results and maps that are remembered, no generated text may have been hashed in the run that may inherit
a further source. -/
theorem runAll_transparent {rs : List Request} (hformed : ∀ r ∈ rs, r.Formed)
    (hfree : ContentHash.CollisionFree (runAll {} rs).2.store.hashed) :
    (runAll {} rs).2.Faithful ∧
      ∀ past plan q later, rs = past ++ .query plan q :: later →
        (q.composes = true → ContentHash.Overt (runAll {} rs).2.store.hashed) → ∀ s store,
        build (runAll {} past).2.defined plan { (runAll {} past).2.store with notices := [] } =
          .ok s store →
        ∀ answer, s.answer q = some answer →
          ((runAll {} rs).1[past.length]?).map Outcome.result = some answer := by
  have hnew := backed_new (runAll {} rs).2.store.hashed
  constructor
  · obtain ⟨-, nodes, hserves, hheld⟩ := runAll_backed hfree hnew hformed
    exact ⟨nodes, hserves.faithful fun _ h => h, hheld⟩
  · rintro past plan q later rfl hovert s store hbuild answer hanswer
    obtain ⟨hpast, hrest⟩ := List.forall_mem_append.mp hformed
    obtain ⟨hquery, hlater⟩ := List.forall_mem_cons.mp hrest
    obtain ⟨-, hbacked⟩ := runAll_backed hfree hnew hpast
    obtain ⟨-, hafter⟩ := run_backed hfree hbacked hquery
    -- nothing that the query hashed is forgotten by the requests after it
    obtain ⟨hlog, -⟩ := runAll_backed hfree hafter hlater
    have hend : (runAll {} (past ++ .query plan q :: later)).2 =
        ((((runAll {} past).2.run (.query plan q)).2).runAll later).2 := by
      rw [runAll_append]
      rfl
    rw [← hend] at hlog
    rw [getElem?_runAll, Option.map_some,
      (result_run_query hfree hbacked hquery hbuild hlog).2 hovert answer hanswer]

/-- A file that is remembered is composed under one limit, both caches are cleared, and its map is asked
for under another limit, with a file name. -/
theorem runAll_transparent_kept :
    let past : List Request := [.define "k" (.kept (.file "a" "f")),
      .query (.ref "k") (.compose { maxChain := some (5 : Nat) }), .clear .both]
    let rs := past ++ [.query (.ref "k") (.map { file := some "o" })]
    (runAll {} rs).2.Faithful ∧ ((runAll {} rs).1[3]?).map Outcome.result =
      some (.ok (.map (some ⟨["f"], some [some "a"], [], "AAAA", some "o", none⟩))) := by
  intro past rs
  have hkept : Request.Formed (.define "k" (.kept (.file "a" "f"))) := .kept (.file rfl rfl)
  have hformed : ∀ r ∈ rs, r.Formed := by
    show ∀ r ∈ past ++ [_], r.Formed
    simp only [past, List.cons_append, List.nil_append, List.forall_mem_cons]
    exact ⟨hkept, .ref "k", trivial, .ref "k", by simp⟩
  have hhashed : (runAll {} rs).2.store.hashed = [ContentHash.fileFields "a" "f"] := by
    decide +kernel
  have hfree : ContentHash.CollisionFree (runAll {} rs).2.store.hashed := by
    rw [hhashed]
    intro fs hfs gs hgs _
    rw [List.mem_singleton.mp hfs, List.mem_singleton.mp hgs]
  have hovert : ContentHash.Overt (runAll {} rs).2.store.hashed := by
    rw [hhashed]
    decide
  have hanswer : (Source.kept 0 (.file "a" "f")).answer (.map { file := some "o" }) =
      some (.ok (.map (some ⟨["f"], some [some "a"], [], "AAAA", some "o", none⟩))) := by
    decide +kernel
  obtain ⟨hfaithful, hanswers⟩ := runAll_transparent hformed hfree
  exact ⟨hfaithful, hanswers past _ _ [] rfl (fun _ => hovert) _ _ rfl _ hanswer⟩

/-- A run in which memory shows: the second source has the content hash of the first, and inherits another
further source. -/
theorem runAll_inherited :
    let document (source : Text) : Json := .obj [("version", .num 3), ("sources", .arr [.str source]),
      ("names", .arr []), ("mappings", .str "AAAA")]
    let query (source : Text) : Request := .query (.kept (.generated "a" "__proto__"
      (.document (document "__proto__")) (some "o") (some (.document (document source))) [] false))
      (.compose {})
    ((runAll {} [query "q.js"]).1[0]?).map Outcome.result =
        some (.ok (.composed ⟨"a", [⟨0, 0, some ⟨0, 0, 0, none⟩⟩], ⟨[("q.js", none)]⟩, {}, 1⟩)) ∧
      ((runAll {} [query "p.js", query "q.js"]).1[1]?).map Outcome.result =
        some (.ok (.composed ⟨"a", [⟨0, 0, some ⟨0, 0, 0, none⟩⟩], ⟨[("p.js", none)]⟩, {}, 1⟩)) := by
  constructor
  · decide +kernel
  · decide +kernel

end Session

end Provenance
