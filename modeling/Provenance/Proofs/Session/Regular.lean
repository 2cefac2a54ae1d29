/-
# Regular answers

Whatever has been asked of a session before, a source whose maps have integers only is composed to a
regular result, or is refused because a chain of source maps is longer than the limit, or because what is
found for a source of a map is no source.

The main facts:

* `composed_regular` : composing gives regular results, without memory and in every run;
* `composed_member` : a map with the name of an inherited member is refused.
-/
import Provenance.Proofs.Session.Constructed
import Provenance.Proofs.Tree.Regular

namespace Provenance.Session

/-- **Composing gives regular results.**  A constructed source with maps of integers is composed to a
regular result with its text, or refused because a chain of source maps is longer than the limit, or
because what is found for a source of a map is no source.  So is every source in a run of well-formed
requests, whatever is remembered by then, as long as no two streams of bytes that have been hashed in the
run share a digest, and no generated text has been hashed that may inherit a further source. -/
theorem composed_regular {s : Source} (hmaps : s.IntegerMaps) :
    (s.Constructed → ∀ limit : Number, s.RegularOutcome (s.compose limit)) ∧
    ∀ (past later : List Request) (plan : Plan) (options : OutputOptions),
      (∀ r ∈ past ++ .query plan (.compose options) :: later, r.Formed) →
      ContentHash.CollisionFree
        (runAll {} (past ++ .query plan (.compose options) :: later)).2.store.hashed →
      ContentHash.Overt (runAll {} (past ++ .query plan (.compose options) :: later)).2.store.hashed →
      ∀ store, build (runAll {} past).2.defined plan
          { (runAll {} past).2.store with notices := [] } = .ok s store →
        ∃ result, s.RegularOutcome result ∧
          ((runAll {} (past ++ .query plan (.compose options) :: later)).1[past.length]?).map
            Outcome.result = some ((result.mapError .compose).map .composed) := by
  refine ⟨fun hs limit => Source.regularOutcome_compositionAt hs hmaps limit 0, ?_⟩
  intro past later plan options hformed hfree hovert store hbuild
  obtain ⟨hs, hanswer⟩ := composing_of_runAll hformed hfree hovert hbuild
  exact ⟨s.compose options.limit, Source.regularOutcome_compositionAt hs hmaps options.limit 0,
    hanswer _ rfl⟩

/-- A text is mapped to a file through a map with an entry beyond the end of the text. -/
theorem composed_regular_generated :
    let document : Json := .obj [("version", .num 3), ("sources", .arr [.str "a.js"]),
      ("names", .arr [.str "n"]), ("mappings", .str "AAAA,C,EAAEA;A")]
    let past : List Request := [.define "m" (.generated "ab\n" "x.js" (.document document) none none
      [("a.js", .file "a" "f.js")] false)]
    ∃ c, ((runAll {} (past ++ [.query (.ref "m") (.compose {})])).1[1]?).map Outcome.result =
      some (.ok (.composed c)) ∧ c.text = "ab\n" ∧ c.Regular := by
  intro document past
  have hformed : ∀ r ∈ past ++ [.query (.ref "m") (.compose {})], r.Formed := by
    simp only [past, List.cons_append, List.nil_append, List.forall_mem_cons]
    refine ⟨.generated rfl rfl (.document _) (by simp) (by simp) ?_ ?_, .ref "m", by simp⟩
    · exact List.forall_mem_singleton.mpr rfl
    · exact List.forall_mem_singleton.mpr (.file rfl rfl)
  have hfree : ContentHash.CollisionFree
      (runAll {} (past ++ [.query (.ref "m") (.compose {})])).2.store.hashed :=
    ContentHash.collisionFree_of_forall_eq ["AAAA,C,EAAEA;A"] (by decide +kernel)
  have hovert : ContentHash.Overt
      (runAll {} (past ++ [.query (.ref "m") (.compose {})])).2.store.hashed := by decide +kernel
  cases hbuild : build (runAll {} past).2.defined (.ref "m")
      { (runAll {} past).2.store with notices := [] } with
  | error e store =>
    have hok : (match build (runAll {} past).2.defined (.ref "m")
        { (runAll {} past).2.store with notices := [] } with
      | .ok _ _ => true
      | .error _ _ => false) = true := by decide +kernel
    rw [hbuild] at hok
    cases hok
  | ok s store =>
    have hmaps : (match build (runAll {} past).2.defined (.ref "m")
        { (runAll {} past).2.store with notices := [] } with
      | .ok s _ => decide s.IntegerMaps
      | .error _ _ => true) = true := by decide +kernel
    rw [hbuild] at hmaps
    obtain ⟨result, hregular, hresult⟩ := (composed_regular (of_decide_eq_true hmaps)).2 past []
      (.ref "m") {} hformed hfree hovert store hbuild
    have hanswer : ((runAll {} (past ++ [.query (.ref "m") (.compose {})])).1[1]?).map
        Outcome.result = some (.ok (.composed ⟨"ab\n", [⟨0, 0, some ⟨0, 0, 0, none⟩⟩, ⟨0, 1, none⟩],
          ⟨[("f.js", some "a")]⟩, ⟨["n"]⟩, 1⟩)) := by decide +kernel
    have heq := Option.some.inj (hresult.symm.trans hanswer)
    cases result with
    | error e => cases heq
    | ok c =>
      obtain ⟨-, hc⟩ := hregular
      cases heq
      exact ⟨_, hanswer, rfl, hc⟩

/-- A map that lists a source with the name of an inherited member is not composed, although no further
source is given. -/
theorem composed_member :
    let document : Json := .obj [("version", .num 3), ("sources", .arr [.str "constructor"]),
      ("names", .arr []), ("mappings", .str "AAAA")]
    ((runAll {} [.query (.generated "a" "x.js" (.document document) none none [] false)
      (.compose {})]).1[0]?).map Outcome.result = some (.error (.compose .notSource)) := by
  decide +kernel

end Provenance.Session
