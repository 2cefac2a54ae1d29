/-
# Sessions build constructed sources

Building a node checks it, and what the checks look at is remembered faithfully, so that every source
of a session is constructed.

The main facts:

* `sound_upheld` : every way of making a node makes a constructed one;
* `query_of_runAll` : a query in a run is about a constructed source, and is answered as it is without
  memory.
-/
import Provenance.Proofs.Session.Run
import Provenance.Proofs.Tree.Constructed

namespace Provenance.Session

variable {hashed : List (List Text)} {sources : List Source}

/-! ## Steps of an action -/

/-- An action after another has the result of the second in the state after the first. -/
theorem exists_of_bind_eq_ok {ε σ α β : Type} {m : EStateM ε σ α} {f : α → EStateM ε σ β} {s u : σ}
    {w : β} (h : (m >>= f) s = .ok w u) : ∃ v t, m s = .ok v t ∧ f v t = .ok w u := by
  simp only [bind, EStateM.bind] at h
  cases hm : m s with
  | ok v t =>
    rw [hm] at h
    exact ⟨v, t, rfl, h⟩
  | error e t =>
    rw [hm] at h
    cases h

/-- What an action guarantees, where it succeeds. -/
theorem Gives.of_ok {ε σ α : Type} [HasStore σ] {I : σ → Prop} {m : EStateM ε σ α}
    {Q : Except ε α → Prop} (hm : Gives hashed I m Q) {s t : σ} {v : α} (hs : I s)
    (h : m s = .ok v t) : log s ⊆ log t ∧ I t ∧ (log t ⊆ hashed → Q (.ok v)) := by
  have hmeets := hm s hs
  unfold outcome at hmeets
  rwa [h] at hmeets

/-! ## Constructed sources in play -/

/-- The sources in play are backed, and they are constructed if all that has been hashed is among
`hashed`. -/
def Sound (hashed : List (List Text)) (sources : List Source) (store : Store) : Prop :=
  Backed hashed sources store ∧ (store.hashed ⊆ hashed → ∀ s ∈ sources, s.Constructed)

theorem sound_hereditary : Hereditary (Sound hashed) := fun _ _ _ h hsub =>
  ⟨h.1.subset hsub, fun hlog s hs => h.2 hlog s (hsub hs)⟩

/-- An action that builds sources keeps them constructed if those in its result are. -/
theorem sound_of_builds {ε α : Type} {parts : α → List Source} {m : EStateM ε Store α}
    (hm : Builds hashed sources parts m)
    (hparts : ∀ store v t, Backed hashed sources store → m store = .ok v t → t.hashed ⊆ hashed →
      (∀ s ∈ sources, s.Constructed) → ∀ s ∈ parts v, s.Constructed) :
    Brings (Sound hashed) sources parts m := by
  rintro store ⟨hbacked, hsources⟩
  obtain ⟨hlog, hend⟩ := hm store hbacked
  refine ⟨hlog, ?_⟩
  unfold outcome at hlog hend ⊢
  cases hr : m store with
  | ok v t =>
    rw [hr] at hlog hend
    refine ⟨hend, fun hsub s hs => ?_⟩
    have hbefore := hsources fun _ h => hsub (hlog h)
    rcases List.mem_append.mp hs with hs | hs
    · exact hparts store v t hbacked hr hsub hbefore s hs
    · exact hbefore s hs
  | error e t =>
    rw [hr] at hlog hend
    exact ⟨hend, fun hsub => hsources fun _ h => hsub (hlog h)⟩

/-! ## New nodes -/

theorem constructed_joinedNode {children : List Source} {store t : Store} {s : Source}
    (h : joinedNode children store = .ok s t) (hchildren : ∀ c ∈ children, c.Constructed) :
    s.Constructed := by
  cases h
  refine .joined fun c hc => ?_
  obtain ⟨child, hchild, hc⟩ := List.mem_flatMap.mp hc
  have hconstructed := hchildren child hchild
  cases child with
  | joined id parts =>
    cases hconstructed with
    | joined hparts => exact hparts c hc
  | _ =>
    rw [List.mem_singleton.mp hc]
    exact hconstructed

theorem constructed_keptNode {child s : Source} {store t : Store}
    (h : keptNode child store = .ok s t) (hchild : child.Constructed) : s.Constructed := by
  cases child with
  | kept id child =>
    cases h
    exact hchild
  | _ =>
    cases h
    exact .kept hchild

/-- The text that replacements are checked against is that of the base. -/
theorem constructed_editedNode {base s : Source} {rs : List Replacement} {store t : Store}
    {nodes : NodeId → Option Source} (h : editedNode base rs store = .ok s t)
    (hserves : store.Serves hashed nodes) (hheld : base.Held nodes) (hsub : t.hashed ⊆ hashed)
    (hbase : base.Constructed) : s.Constructed := by
  obtain ⟨text, u, htext, h⟩ := exists_of_bind_eq_ok h
  obtain ⟨-, -, hread⟩ := (textOf_reads hheld).act.of_ok hserves htext
  cases hcheck : checkReplacements text rs with
  | error e =>
    rw [hcheck] at h
    cases h
  | ok edits =>
    rw [hcheck] at h
    cases h
    obtain ⟨text', htext', rfl⟩ := hread hsub
    obtain rfl := Except.ok.inj htext'
    exact .edited hbase hcheck

theorem constructed_innerNode (hfree : ContentHash.CollisionFree hashed) {name : Text}
    {sourceText : Option Text} {v : MapValue} {s : Source} {store t : Store}
    {nodes : NodeId → Option Source} (h : innerNode name sourceText v store = .ok s t)
    (hserves : store.Serves hashed nodes) (hsub : t.hashed ⊆ hashed) : s.Constructed := by
  cases sourceText with
  | none => cases h
  | some text =>
    obtain ⟨m, u, hload, h⟩ := exists_of_bind_eq_ok h
    obtain ⟨-, -, hchecked⟩ := (loadMapFor_gives hfree name v).of_ok hserves hload
    cases h
    obtain ⟨table, hdecode, hcheck⟩ := hchecked hsub m rfl
    exact .generated hdecode hcheck (by simp)

theorem constructed_generatedNode (hfree : ContentHash.CollisionFree hashed) {text name : Text}
    (hname : name.wellFormed = true) {map : MapValue} {sourceText : Option Text}
    (hsourceText : ∀ t ∈ sourceText, t.wellFormed = true) {innerMap : Option MapValue}
    {inputs : List (Text × Source)} {withholdText : Bool} {s : Source} {store t : Store}
    {nodes : NodeId → Option Source}
    (h : generatedNode text name map sourceText innerMap inputs withholdText store = .ok s t)
    (hserves : store.Serves hashed nodes) (hsub : t.hashed ⊆ hashed)
    (hinputs : ∀ input ∈ inputs, input.2.Constructed) : s.Constructed := by
  obtain ⟨m, u, hload, h⟩ := exists_of_bind_eq_ok h
  obtain ⟨-, hserves', hchecked⟩ := (loadMapFor_gives hfree name map).of_ok hserves hload
  cases innerMap with
  | none =>
    cases h
    obtain ⟨table, hdecode, hcheck⟩ := hchecked hsub m rfl
    exact .generated hdecode hcheck fun input hmem => hinputs input (mem_of_mem_ofList hmem)
  | some v =>
    simp only [pure_bind] at h
    obtain ⟨inner, w, hinner, h⟩ := exists_of_bind_eq_ok h
    -- the log of the inner node is the log in the end
    have hbuilds : Builds hashed [] (fun s => [s]) (innerNode name sourceText v) :=
      innerNode_builds hfree hname hsourceText v
    obtain ⟨hlog, -⟩ := hbuilds u ⟨nodes, hserves', by simp⟩
    unfold outcome at hlog
    rw [hinner] at hlog
    cases h
    obtain ⟨table, hdecode, hcheck⟩ := hchecked (fun _ hf => hsub (hlog hf)) m rfl
    have hconstructed := constructed_innerNode hfree hinner hserves' hsub
    refine .generated hdecode hcheck fun input hmem => ?_
    rcases List.mem_append.mp (mem_of_mem_ofList hmem) with hmem | hmem
    · exact hinputs input hmem
    · rw [List.mem_singleton.mp hmem]
      exact hconstructed

/-- **Every way of making a node makes a constructed one** of constructed ones. -/
theorem sound_upheld (hfree : ContentHash.CollisionFree hashed) : Upheld hashed (Sound hashed) where
  hereditary := sound_hereditary
  silent hm hparts := sound_of_builds (Builds.of_gives hm hparts) fun _ v _ _ _ _ _ s hs => by
    rw [hparts] at hs
    cases hs
  plain htext h := ⟨(backed_upheld hfree).plain htext h.1, fun hlog =>
    List.forall_mem_cons.mpr ⟨.plain _, h.2 hlog⟩⟩
  file htext hname h := ⟨(backed_upheld hfree).file htext hname h.1, fun hlog =>
    List.forall_mem_cons.mpr ⟨.file _ _, h.2 hlog⟩⟩
  joined hsub := sound_of_builds (joinedNode_builds hsub) fun _ _ _ _ hm _ hsources =>
    List.forall_mem_singleton.mpr
      (constructed_joinedNode hm fun c hc => hsources c (hsub hc))
  kept hchild := sound_of_builds (keptNode_builds hchild) fun _ _ _ _ hm _ hsources =>
    List.forall_mem_singleton.mpr (constructed_keptNode hm (hsources _ hchild))
  edited hbase hrs := by
    refine sound_of_builds (editedNode_builds hbase hrs) ?_
    rintro store s t ⟨nodes, hserves, hheld⟩ hm hsub hsources
    exact List.forall_mem_singleton.mpr
      (constructed_editedNode hm hserves (hheld _ hbase) hsub (hsources _ hbase))
  generated htext hname hsourceText hkeys hinputs := by
    refine sound_of_builds
      (generatedNode_builds hfree htext hname _ hsourceText _ hkeys hinputs _) ?_
    rintro store s t ⟨nodes, hserves, hheld⟩ hm hsub hsources
    exact List.forall_mem_singleton.mpr
      (constructed_generatedNode hfree hname hsourceText hm hserves hsub fun input hmem =>
        hsources _ (hinputs (List.mem_map_of_mem hmem)))

/-! ## Runs -/

theorem sound_new (hashed : List (List Text)) :
    Sound hashed (sourcesOf ({} : Session).defined) ({} : Session).store :=
  ⟨backed_new hashed, fun _ s h => by cases h⟩

/-- Before a request of a run the sources of the session are sound, and what is hashed up to the end of
the request is hashed in the run. -/
theorem sound_of_runAll {past later : List Request} {r : Request}
    (hformed : ∀ q ∈ past ++ r :: later, q.Formed)
    (hfree : ContentHash.CollisionFree (runAll {} (past ++ r :: later)).2.store.hashed) :
    Sound (runAll {} (past ++ r :: later)).2.store.hashed (sourcesOf (runAll {} past).2.defined)
        (runAll {} past).2.store ∧
      ((runAll {} past).2.run r).2.store.hashed ⊆ (runAll {} (past ++ r :: later)).2.store.hashed := by
  obtain ⟨hpast, hrest⟩ := List.forall_mem_append.mp hformed
  obtain ⟨hr, hlater⟩ := List.forall_mem_cons.mp hrest
  have hsound := sound_upheld hfree
  obtain ⟨-, hdefined⟩ := runAll_upheld hfree hsound (sound_new _) hpast
  obtain ⟨-, hafter⟩ := run_upheld hfree hsound hdefined hr
  obtain ⟨hlog, -⟩ := runAll_upheld hfree hsound hafter hlater
  have hend : (runAll {} (past ++ r :: later)).2 =
      (((runAll {} past).2.run r).2.runAll later).2 := by
    rw [runAll_append]
    rfl
  rw [← hend] at hlog
  exact ⟨hdefined, hlog⟩

/-- Answering a query forgets nothing that has been hashed while the source was built. -/
theorem hashed_build_subset (hfree : ContentHash.CollisionFree hashed) {session : Session}
    (h : Sound hashed (sourcesOf session.defined) session.store) {plan : Plan} (hplan : plan.Formed)
    (q : Query) :
    (outcome (build session.defined plan) { session.store with notices := [] }).2.hashed ⊆
      (session.run (.query plan q)).2.store.hashed := by
  obtain ⟨-, hbuilt⟩ := build_builds hfree plan hplan (fun _ _ => mem_sourcesOf) _
    ((backed_upheld hfree).start h.1)
  unfold outcome at hbuilt ⊢
  cases hbuild : build session.defined plan { session.store with notices := [] } with
  | ok s store =>
    rw [hbuild] at hbuilt
    obtain ⟨nodes, hserves, hheld⟩ := hbuilt
    rw [(run_query_eq hbuild q).2]
    exact (ask_gives hfree (hheld s List.mem_cons_self) q store hserves).1
  | error e store =>
    rw [run_query_of_error hbuild]
    exact List.Subset.refl _

/-- **A query in a run** is about a constructed source, comes with its text, and is answered as it is
without memory: if it composes the source, as long as no generated text has been hashed in the run that
may inherit a further source. -/
theorem query_of_runAll {past later : List Request} {plan : Plan} {q : Query}
    (hformed : ∀ r ∈ past ++ .query plan q :: later, r.Formed)
    (hfree : ContentHash.CollisionFree (runAll {} (past ++ .query plan q :: later)).2.store.hashed)
    {s : Source} {store : Store}
    (hbuild : build (runAll {} past).2.defined plan { (runAll {} past).2.store with notices := [] } =
      .ok s store) :
    s.Constructed ∧ ∃ result,
      ((runAll {} (past ++ .query plan q :: later)).1[past.length]?).map Outcome.result = some result ∧
        (∀ v, result = .ok v → q.ComesWith s.text v) ∧
        ((q.composes = true →
            ContentHash.Overt (runAll {} (past ++ .query plan q :: later)).2.store.hashed) →
          ∀ answer, s.answer q = some answer → result = answer) := by
  have hquery : Request.Formed (.query plan q) :=
    hformed _ (List.mem_append_right _ List.mem_cons_self)
  obtain ⟨hdefined, hlog⟩ := sound_of_runAll hformed hfree
  have hsound := sound_upheld hfree
  have hhashed := hashed_build_subset hfree hdefined hquery q
  obtain ⟨-, hbuilt⟩ :=
    build_brings hfree hsound plan hquery (fun _ _ => mem_sourcesOf) _ (hsound.start hdefined)
  unfold outcome at hbuilt hhashed
  rw [hbuild] at hbuilt hhashed
  refine ⟨hbuilt.2 (fun fields hf => hlog (hhashed hf)) s List.mem_cons_self, _, ?_,
    result_run_query hfree hdefined.1 hquery hbuild hlog⟩
  rw [getElem?_runAll, Option.map_some]

/-- **A query in a run that composes its source** is answered as it is without memory, as long as no
generated text has been hashed in the run that may inherit a further source. -/
theorem composing_of_runAll {past later : List Request} {plan : Plan} {q : Query}
    (hformed : ∀ r ∈ past ++ .query plan q :: later, r.Formed)
    (hfree : ContentHash.CollisionFree (runAll {} (past ++ .query plan q :: later)).2.store.hashed)
    (hovert : ContentHash.Overt (runAll {} (past ++ .query plan q :: later)).2.store.hashed)
    {s : Source} {store : Store}
    (hbuild : build (runAll {} past).2.defined plan { (runAll {} past).2.store with notices := [] } =
      .ok s store) :
    s.Constructed ∧ ∀ answer, s.answer q = some answer →
      ((runAll {} (past ++ .query plan q :: later)).1[past.length]?).map Outcome.result =
        some answer := by
  obtain ⟨hs, result, hresult, -, hanswer⟩ := query_of_runAll hformed hfree hbuild
  refine ⟨hs, fun answer hs => ?_⟩
  rw [hresult, hanswer (fun _ => hovert) answer hs]

end Provenance.Session
