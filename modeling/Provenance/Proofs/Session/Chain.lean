/-
# Limits on chains, with memory

A session composes a node once, and uses the result again only where the chains of source maps behind
it still fit under the limit.  So the limit counts the steps of the walk through the whole tree, in
which a node stands in every place that leads to it.

The main facts:

* `composed_under_limit` : what a session answers when a source is composed under a limit;
* `composed_unlisted` : a map that refers to no listed source.
-/
import Provenance.Proofs.Session.Constructed
import Provenance.Proofs.Tree.Regular

namespace Provenance.Session

/-- **The limit on chains of source maps is exact**, whatever is remembered, in every run of well-formed
requests in which no two streams of bytes that have been hashed share a digest.  A resolvable source is
composed if and only if its chain is within the limit, to one result under all such limits, and is
otherwise refused at the first step of its walk that is longer than the limit.  A source that is not
resolvable is never composed.  No generated text may have been hashed in the run that may inherit a
further source. -/
theorem composed_under_limit {past later : List Request} {plan : Plan} {options : OutputOptions}
    {n : Nat} (hlimit : options.limit = (n : Number))
    (hformed : ∀ r ∈ past ++ .query plan (.compose options) :: later, r.Formed)
    (hfree : ContentHash.CollisionFree
      (runAll {} (past ++ .query plan (.compose options) :: later)).2.store.hashed)
    (hovert : ContentHash.Overt
      (runAll {} (past ++ .query plan (.compose options) :: later)).2.store.hashed)
    {s : Source} {store : Store}
    (hbuild : build (runAll {} past).2.defined plan { (runAll {} past).2.store with notices := [] } =
      .ok s store) :
    let answer := ((runAll {} (past ++ .query plan (.compose options) :: later)).1[past.length]?).map
      Outcome.result
    (s.chain ≤ n →
      (s.Resolvable →
        ∃ c, s.unlimited = .ok c ∧ c.chainLength = s.chain ∧ answer = some (.ok (.composed c))) ∧
      (¬ s.Resolvable → ∃ e, Source.Unresolved e ∧ s.unlimited = .error e ∧
        answer = some (.error (.compose e)))) ∧
    (n < s.chain → ∃ st, s.steps.find? (fun st => n < st.number) = some st ∧ st.number = n + 1 ∧
      (answer = some (.error (.compose (.tooDeep st.name (n + 1)))) ∨
        ¬ s.Resolvable ∧ ∃ e, Source.Unresolved e ∧ answer = some (.error (.compose e)))) := by
  intro answer
  obtain ⟨hs, hanswers⟩ := composing_of_runAll hformed hfree hovert hbuild
  have hanswer : answer = some (((s.compose n).mapError .compose).map .composed) := by
    rw [← hlimit]
    exact hanswers _ rfl
  constructor
  · intro hn
    rw [hanswer, Source.compose_of_chain_le hn]
    obtain ⟨hcomposed, hfails⟩ := Source.unlimited_of_constructed hs
    constructor
    · intro hresolvable
      obtain ⟨c, hc, hlength⟩ := hcomposed hresolvable
      exact ⟨c, hc, hlength, by rw [hc]; rfl⟩
    · intro hresolvable
      obtain ⟨e, he, herror⟩ := hfails hresolvable
      exact ⟨e, he, herror, by rw [herror]; rfl⟩
  · intro hn
    obtain ⟨st, hst, hnumber, hresult⟩ := Source.compose_of_lt_chain hs hn
    refine ⟨st, hst, hnumber, ?_⟩
    rcases hresult with hresult | ⟨hresolvable, e, he, hresult⟩
    · left
      rw [hanswer, hresult]
      rfl
    · right
      exact ⟨hresolvable, e, he, by rw [hanswer, hresult]; rfl⟩

/-- A source that the walk has composed already is reached again by one step more. -/
theorem composed_under_limit_shared :
    let document (source : Text) : Json := .obj [("version", .num 3), ("sources", .arr [.str source]),
      ("names", .arr []), ("mappings", .str "AAAA")]
    let past : List Request := [
      .define "u" (.generated "a" "u.js" (.document (document "f.js")) none none
        [("f.js", .file "a" "f.js")] false),
      .define "m" (.generated "a" "m.js" (.document (document "u.js")) none none
        [("u.js", .ref "u")] false)]
    let plan : Plan := .joined [.ref "u", .ref "m"]
    let query : Request := .query plan (.compose { maxChain := some (1 : Nat) })
    ((runAll {} (past ++ [query])).1[2]?).map Outcome.result =
      some (.error (.compose (.tooDeep "u.js" 2))) := by
  intro document past plan query
  have hformed : ∀ r ∈ past ++ [query], r.Formed := by
    simp only [past, query, plan, List.cons_append, List.nil_append, List.forall_mem_cons]
    refine ⟨.generated rfl rfl (.document _) (by simp) (by simp) ?_ ?_,
      .generated rfl rfl (.document _) (by simp) (by simp) ?_ ?_, .joined ?_, by simp⟩
    · exact List.forall_mem_singleton.mpr rfl
    · exact List.forall_mem_singleton.mpr (.file rfl rfl)
    · exact List.forall_mem_singleton.mpr rfl
    · exact List.forall_mem_singleton.mpr (.ref "u")
    · simp only [List.forall_mem_cons]
      exact ⟨.ref "u", .ref "m", by simp⟩
  have hfree : ContentHash.CollisionFree (runAll {} (past ++ [query])).2.store.hashed :=
    ContentHash.collisionFree_of_forall_eq ["AAAA"] (by decide +kernel)
  have hovert : ContentHash.Overt (runAll {} (past ++ [query])).2.store.hashed := by decide +kernel
  have hbuilt : (match build (runAll {} past).2.defined plan
      { (runAll {} past).2.store with notices := [] } with
    | .ok s _ => decide (s.IntegerMaps ∧ (∀ u ∈ s.nodes, u.FindsSources) ∧ 1 < s.chain ∧
        s.steps.find? (fun st => 1 < st.number) = some ⟨"u.js", 2⟩)
    | .error _ _ => false) = true := by decide +kernel
  cases hbuild : build (runAll {} past).2.defined plan
      { (runAll {} past).2.store with notices := [] } with
  | error e store =>
    rw [hbuild] at hbuilt
    cases hbuilt
  | ok s store =>
    rw [hbuild] at hbuilt
    obtain ⟨hmaps, hfinds, hchain, hfirst⟩ := of_decide_eq_true hbuilt
    have hresolvable : s.Resolvable :=
      Source.resolvable_of_integerMaps (query_of_runAll hformed hfree hbuild).1 hmaps hfinds
    obtain ⟨st, hst, -, hanswer | ⟨hnot, -⟩⟩ :=
      (composed_under_limit rfl hformed hfree hovert hbuild).2 hchain
    · obtain rfl := Option.some.inj (hfirst.symm.trans hst)
      exact hanswer
    · exact absurd hresolvable hnot

/-- A field of 206 digits is read as no number, which is the index of no source: a text without further
sources is not composed. -/
theorem composed_unlisted :
    let document : Json := .obj [("version", .num 3), ("sources", .arr [.str "a.js"]), ("names", .arr []),
      ("mappings", .str (("A" : Text) ++ List.replicate 205 103 ++ ("AAA" : Text)))]
    ((runAll {} [.query (.generated "a" "x.js" (.document document) none none [] false)
      (.compose {})]).1[0]?).map Outcome.result = some (.error (.compose (.resolve .noSource))) := by
  decide +kernel

end Provenance.Session
