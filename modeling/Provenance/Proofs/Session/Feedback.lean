/-
# Feeding a map back

The source map of a source, given back to the source's text, is accepted under every name, and the map of
the new source is the map that was given, unless it lists a source with the name of a member that every
table of further sources inherits.  In a session the same map is found whatever is remembered by then, and
whatever is asked between making the map and feeding it back.

The main facts:

* `mapWith_fedBack` : the map of a source made from its own map, without memory;
* `build_fedBack_gives` : a map that is fit for its text is accepted with faithful memory;
* `map_fedBack` : feeding a map back changes nothing, without memory and in every run;
* `fedBack_member` : a map with the name of an inherited member is refused.
-/
import Provenance.Proofs.Session.Constructed
import Provenance.Proofs.Tree.Feedback

namespace Provenance

/-- A source has a map if it is composed and its result has one. -/
theorem Source.mapWith_eq_ok_iff {s : Source} {options : OutputOptions} {m : Option SourceMap} :
    s.mapWith options = .ok m ↔
      ∃ c, s.compose options.limit = .ok c ∧ c.toMap options = .ok m := by
  simp only [mapWith, bind_eq_ok_iff, mapError_eq_ok_iff]

/-- **The map of a source made from its own map** is that map, without memory.  It is refused if the map
lists a source with the name of a member. -/
theorem Source.mapWith_fedBack {s : Source} {options : OutputOptions} {M : SourceMap}
    (hs : s.Constructed) (hlimit : ¬ options.limit < ((0 + 1 : Nat) : Number))
    (hroot : options.sourceRoot = none) (hM : s.mapWith options = .ok (some M))
    (hnumbers : ∀ c, s.compose options.limit = .ok c → ∀ m ∈ c.mappings, m.IntegersUpTo 0x7FFFFFFF)
    (id : NodeId) (name : Text) :
    (s.fedBack id name M).Constructed ∧ (s.fedBack id name M).mapWith options =
      if M.ListsMember then .error (.compose .notSource) else .ok (some M) := by
  obtain ⟨c, hc, hcM⟩ := mapWith_eq_ok_iff.mp hM
  refine ⟨fedBack_constructed hs hc (hnumbers c hc) hcM id name, ?_⟩
  by_cases hmember : M.ListsMember
  · have hrefused := compositionAt_fedBack_of_listsMember hroot hcM hmember hlimit id name (s := s)
    rw [if_pos hmember, mapWith, compose, hrefused]
    rfl
  · rw [if_neg hmember]
    exact mapWith_eq_ok_iff.mpr
      (compositionAt_fedBack hs hc (hnumbers c hc) hroot hcM hmember options.limit 0 id name)

/-- The plan for a text with the map of a source that has been defined. -/
def Plan.fedBack (t name source : Text) (options : OutputOptions) : Plan :=
  .generated t name (.mapOf (.ref source) options) none none [] false

namespace Session

variable {hashed : List (List Text)} {nodes : NodeId → Option Source}

/-! ## Building a source from its own map -/

/-- A new identity changes nothing that is remembered. -/
theorem freshId_gives : Gives hashed (Store.Serves hashed nodes) (freshId : Action NodeId)
    fun r => ∃ id, r = .ok id := by
  intro store hstore
  refine ⟨fun _ h => h, ⟨fun id hle => ?_, fun hsub => ?_⟩, fun _ => ⟨_, rfl⟩⟩
  · exact hstore.unused id (Nat.le_of_succ_le hle)
  · obtain ⟨hcell, hdecoded, hcomposed⟩ := hstore.faithful hsub
    exact ⟨hcell, hdecoded, hcomposed⟩

theorem build_fedBack_eq {defined : Definitions} {x : Text} {s : Source}
    (hx : defined.lookup x = some s) (t name : Text) (options : OutputOptions) :
    build defined (.fedBack t name x options) =
      (do
        let m ← mapOf s options
        let m ← loadMapFor name ((m.map .made).getD (.document .null))
        let id ← freshId
        pure (.generated id { text := t, name := name, map := m } [])) := by
  have hnil : Inputs.ofList ([] : List (Text × Source)) = [] := by simp [Inputs.ofList, Inputs.arrange]
  simp only [Plan.fedBack, build, buildMap, buildInner, buildInputs, generatedNode, hx, pure_bind,
    bind_assoc, hnil]

/-- **A map that is fit for the text of its source is accepted**, with faithful memory. -/
theorem build_fedBack_gives (hfree : ContentHash.CollisionFree hashed)
    (hovert : ContentHash.Overt hashed) {s : Source}
    (hheld : s.Held nodes) {defined : Definitions} {x name : Text} (hx : defined.lookup x = some s)
    {options : OutputOptions} {M : SourceMap} (hM : s.mapWith options = .ok (some M))
    (hchecked : checkedFor name M = .ok M) :
    Gives hashed (Store.Serves hashed nodes) (build defined (.fedBack s.text name x options))
      fun r => ∃ id, r = .ok (s.fedBack id name M) := by
  have hmap : Yields hashed (Store.Serves hashed nodes) (mapOf s options) (s.mapWith options) :=
    Gives.imp (mapOf_attains hfree hheld options) fun _ hr => hr.2 hovert
  rw [build_fedBack_eq hx]
  refine Gives.bind hmap (fun m => Gives.assuming ?_) fun e he => ?_
  · rw [hM]
    by_cases hm : m = some M
    · rw [hm]
      refine Gives.imp (Gives.bind_ok (A := fun m => m = M) ?_ fun m => ?_) fun r hr _ => hr
      · refine Gives.imp (loadMapFor_made_yields hfree name M) ?_
        rintro r rfl
        exact ⟨M, hchecked, rfl⟩
      · refine Gives.assuming (Gives.bind_ok (A := fun _ => True) (Gives.imp freshId_gives ?_)
          fun id => Gives.assuming (Gives.pure ?_))
        · rintro r ⟨id, rfl⟩
          exact ⟨id, rfl, trivial⟩
        · rintro - rfl
          exact ⟨id, rfl⟩
    · -- the map of the source is another one
      refine Gives.imp (Gives.follow (loadMapFor_gives hfree name _) fun _ =>
        Gives.follow freshId_gives fun _ => Gives.pure trivial) fun r _ h => ?_
      exact absurd (Except.ok.inj h) hm
  · rw [hM] at he
    cases he

/-- An action has a result if its outcome has it. -/
theorem exists_of_outcome_eq_ok {ε σ α : Type} {m : EStateM ε σ α} {s : σ} {v : α}
    (h : (outcome m s).1 = .ok v) : ∃ t, m s = .ok v t := by
  unfold outcome at h
  cases hm : m s with
  | ok w t =>
    rw [hm] at h
    exact ⟨t, congrArg (EStateM.Result.ok · t) (Except.ok.inj h)⟩
  | error e t =>
    rw [hm] at h
    cases h

/-! ## Runs -/

/-- **Feeding a map back changes nothing.**  Let the numbers in the result of a constructed source be
integers up to 2147483647, and let the source have a map, with or without columns.  Then the text of the
source with this map is constructed under every name, and has the same map, unless the map lists a source
with the name of a member that every table of further sources inherits; then it is refused, because the
member is no source.  So it is in every run of well-formed requests in which a defined source was asked
for its map and its text is composed with this map later, whatever is remembered by then, as long as no
two streams of bytes that have been hashed in the run share a digest, and no generated text has been
hashed that may inherit a further source. -/
theorem map_fedBack (columns : Bool) :
    (∀ (s : Source) (M : SourceMap), s.Constructed →
      s.mapWith { columns := columns } = .ok (some M) →
      (∀ c, s.compose (defaultMaxChain : Nat) = .ok c →
        ∀ m ∈ c.mappings, m.IntegersUpTo 0x7FFFFFFF) →
      ∀ id name, (s.fedBack id name M).Constructed ∧
        (s.fedBack id name M).mapWith { columns := columns } =
          if M.ListsMember then .error (.compose .notSource) else .ok (some M)) ∧
    ∀ (past between later : List Request) (x name : Text) (s : Source) (M : SourceMap),
      let before := past ++ .query (.ref x) (.map { columns := columns }) :: between
      let again := Plan.fedBack s.text name x { columns := columns }
      let rs := before ++ .query again (.map { columns := columns }) :: later
      (∀ r ∈ rs, r.Formed) → ContentHash.CollisionFree (runAll {} rs).2.store.hashed →
      ContentHash.Overt (runAll {} rs).2.store.hashed →
      (runAll {} past).2.defined.lookup x = some s →
      (runAll {} before).2.defined.lookup x = some s →
      (∀ c, s.compose (defaultMaxChain : Nat) = .ok c →
        ∀ m ∈ c.mappings, m.IntegersUpTo 0x7FFFFFFF) →
      ((runAll {} rs).1[past.length]?).map Outcome.result = some (.ok (.map (some M))) →
      ((runAll {} rs).1[before.length]?).map Outcome.result =
        some (if M.ListsMember then .error (.compose .notSource) else .ok (.map (some M))) := by
  have hlimit : ¬ OutputOptions.limit { columns := columns } < ((0 + 1 : Nat) : Number) := by
    show ¬ ((defaultMaxChain : Nat) : Number) < ((0 + 1 : Nat) : Number)
    rw [Number.natCast_lt]
    decide
  refine ⟨fun s M hs hM hnumbers => Source.mapWith_fedBack hs hlimit rfl hM hnumbers, ?_⟩
  intro past between later x name s M before again rs hformed hfree hovert hx hagain hnumbers hanswer
  have hrs : rs = past ++ .query (.ref x) (.map { columns := columns }) ::
      (between ++ .query again (.map { columns := columns }) :: later) := by
    simp [rs, before]
  -- the first query tells the map of the source without memory
  obtain ⟨hs, hfirst⟩ := composing_of_runAll (hrs ▸ hformed) (hrs ▸ hfree) (hrs ▸ hovert)
    (show build (runAll {} past).2.defined (.ref x)
      { (runAll {} past).2.store with notices := [] } = .ok s _ by rw [build, hx]; rfl)
  have hM : s.mapWith { columns := columns } = .ok (some M) := by
    have hresult := hfirst _ rfl
    rw [← hrs, hanswer] at hresult
    obtain ⟨m, hm, hmap⟩ := map_eq_ok_iff.mp (Option.some.inj hresult).symm
    cases hmap
    exact hm
  have hfed := Source.mapWith_fedBack hs hlimit rfl hM hnumbers
  have hchecked : checkedFor name M = .ok M := by
    obtain ⟨hconstructed, -⟩ := hfed 0 name
    cases hconstructed with
    | generated hdecode hcheck _ => exact checkedFor_eq_ok_iff.mpr ⟨rfl, _, hdecode, hcheck⟩
  -- the source is built from that map, and asked for its own
  obtain ⟨hsound, hlog⟩ := sound_of_runAll hformed hfree
  obtain ⟨nodes, hserves, hheld⟩ := (backed_upheld hfree).start hsound.1
  have hplan : again.Formed := hformed _ (List.mem_append_right _ List.mem_cons_self)
  have hhashed := hashed_build_subset hfree hsound hplan (.map { columns := columns })
  obtain ⟨-, -, hbuilt⟩ := build_fedBack_gives hfree hovert (hheld s (mem_sourcesOf hagain)) hagain hM
    hchecked _ hserves
  obtain ⟨id, hid⟩ := hbuilt fun _ h => hlog (hhashed h)
  obtain ⟨store, hbuild⟩ := exists_of_outcome_eq_ok hid
  obtain ⟨-, hsecond⟩ := composing_of_runAll hformed hfree hovert hbuild
  rw [hsecond _ rfl, (hfed id name).2]
  split <;> rfl

/-- A file, a text that comes from nowhere and another file are joined; both caches are cleared between
making the map of lines and feeding it back, under the name of one of the files. -/
theorem map_fedBack_joined :
    let s : Source := .joined 0 [.file "a" "f.js", .plain "b", .file "c\nd" "g.js"]
    let past : List Request :=
      [.define "j" (.joined [.file "a" "f.js", .plain "b", .file "c\nd" "g.js"])]
    let before := past ++ .query (.ref "j") (.map { columns := false }) :: [.clear .both]
    let again := Plan.fedBack "abc\nd" "f.js" "j" { columns := false }
    let M : SourceMap :=
      ⟨["f.js", "g.js"], some [some ("a" : Text), some ("c\nd" : Text)], [], "AAAA;ACCA", none, none⟩
    (s.fedBack 1 "f.js" M).mapWith { columns := false } = .ok (some M) ∧
      ((runAll {} (before ++ [.query again (.map { columns := false })])).1[3]?).map Outcome.result =
        some (.ok (.map (some M))) := by
  intro s past before again M
  have hnumbers : ∀ c, s.compose (defaultMaxChain : Nat) = .ok c →
      ∀ m ∈ c.mappings, m.IntegersUpTo 0x7FFFFFFF := by
    have hall : ∀ c ∈ (s.compose (defaultMaxChain : Nat)).toOption,
        ∀ m ∈ c.mappings, m.IntegersUpTo 0x7FFFFFFF := by decide +kernel
    exact fun c hc => hall c (by rw [hc]; rfl)
  have hs : s.Constructed := by
    refine .joined ?_
    simp only [List.forall_mem_cons]
    exact ⟨.file _ _, .plain _, .file _ _, by simp⟩
  have hformed : ∀ r ∈ before ++ [.query again (.map { columns := false })], r.Formed := by
    simp only [before, past, List.cons_append, List.nil_append, List.forall_mem_cons]
    refine ⟨.joined ?_, .ref "j", trivial, ?_, by simp⟩
    · simp only [List.forall_mem_cons]
      exact ⟨.file rfl rfl, .plain rfl, .file rfl rfl, by simp⟩
    · exact .generated rfl rfl (.mapOf (.ref "j")) (by simp) (by simp) (by simp) (by simp)
  have hmember : ¬ M.ListsMember := by decide +kernel
  -- the mappings text is the only thing that is hashed, before the clearing and after it
  have hfree : ContentHash.CollisionFree
      (runAll {} (before ++ [.query again (.map { columns := false })])).2.store.hashed :=
    ContentHash.collisionFree_of_forall_eq ["AAAA;ACCA"] (by decide +kernel)
  have hovert : ContentHash.Overt
      (runAll {} (before ++ [.query again (.map { columns := false })])).2.store.hashed := by
    decide +kernel
  -- neither the query nor the clearing defines anything
  have hdefined : (runAll {} before).2.defined = (runAll {} past).2.defined := by
    rw [runAll_append]
    exact defined_run_query _ _ _
  obtain ⟨halone, hrun⟩ := map_fedBack false
  have hmap := (halone s M hs (by decide +kernel) hnumbers 1 "f.js").2
  have hanswer := hrun past [.clear .both] [] "j" "f.js" s M hformed hfree hovert rfl
    (by rw [hdefined]; rfl) hnumbers (by decide +kernel)
  rw [if_neg hmember] at hmap hanswer
  exact ⟨hmap, hanswer⟩

/-- The map of a file with the name of an inherited member is made, and refused when it is fed back. -/
theorem fedBack_member :
    let rs : List Request := [.define "s" (.file "a" "constructor"), .query (.ref "s") (.map {}),
      .query (Plan.fedBack "a" "n" "s" {}) (.map {})]
    ((runAll {} rs).1[1]?).map Outcome.result =
        some (.ok (.map (some ⟨["constructor"], some [some ("a" : Text)], [], "AAAA", none, none⟩))) ∧
      ((runAll {} rs).1[2]?).map Outcome.result = some (.error (.compose .notSource)) := by
  intro rs
  constructor
  · decide +kernel
  · decide +kernel

end Session

end Provenance
