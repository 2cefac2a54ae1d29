/-
# Replacements in a session

Making replacements in a source looks at nothing but the text of the source.  It succeeds if they are
applicable to that text, and otherwise reports the first one with which they are not.

The main facts:

* `editedNode_replaces` : what comes of making replacements in a source, with any memory;
* `textOf_base` : in a run, the text that replacements are checked against is that of the source;
* `replaced_if_applicable` : applicable replacements are made, and no others, in every run.
-/
import Provenance.Proofs.Session.Constructed
import Provenance.Proofs.Tree.Replacements

namespace Provenance

/-- What comes of making replacements in a base with a text.  They are made if they are applicable to the
text.  Otherwise the first one is reported with which they are not, and what is reported of it is so. -/
structure Source.Replaces (base : Source) (t : Text) (rs : List Replacement)
    (result : Except Fault Source) : Prop where
  accepted : (∃ s, result = .ok s) ↔ Replacement.Applicable t rs
  made : ∀ s, result = .ok s →
    ∃ id edits, s = .edited id base edits ∧ edits.map Edit.toReplacement = rs
  reported : ∀ e, result = .error e → ∃ before r after problem, rs = before ++ r :: after ∧
    Replacement.Applicable t before ∧ ¬ Replacement.Applicable t (before ++ [r]) ∧
    ReplacementProblem.HoldsOf t.length before.getLast? r problem ∧
    e = .construction (.replacement r problem (r.place? t))

namespace Session

/-- Replacements are checked against the text of the base, and then there is a new node. -/
theorem outcome_editedNode (base : Source) (rs : List Replacement) (store : Store) :
    (outcome (editedNode base rs) store).1 =
        ((checkReplacements (textOf base store).1 rs).mapError .construction).map
          (.edited (textOf base store).2.nextId base) ∧
      (outcome (editedNode base rs) store).2.hashed = (textOf base store).2.hashed := by
  have hstep : editedNode base rs store =
      (do
        let edits ← settle .construction (checkReplacements (textOf base store).1 rs)
        let id ← freshId
        pure (.edited id base edits) : Action Source) (textOf base store).2 := rfl
  unfold outcome
  rw [hstep]
  cases checkReplacements (textOf base store).1 rs <;> exact ⟨rfl, rfl⟩

/-- **What comes of making replacements in a source**, whatever is remembered of it. -/
theorem editedNode_replaces (base : Source) (rs : List Replacement) (store : Store) :
    base.Replaces (textOf base store).1 rs (outcome (editedNode base rs) store).1 := by
  rw [(outcome_editedNode base rs store).1]
  generalize (textOf base store).1 = t
  generalize (textOf base store).2.nextId = id
  refine ⟨?_, fun s hs => ?_, fun e he => ?_⟩
  · rw [← Replacement.exists_checkReplacements_eq_ok_iff]
    cases checkReplacements t rs <;> simp [Except.map]
  · obtain ⟨edits, hedits, rfl⟩ := map_eq_ok_iff.mp hs
    obtain ⟨-, hrs⟩ := checkReplacements_eq_ok_iff.mp (mapError_eq_ok_iff.mp hedits)
    exact ⟨id, edits, rfl, hrs.symm⟩
  · have he := map_eq_error_iff.mp he
    cases hcheck : checkReplacements t rs with
    | ok edits =>
      rw [hcheck] at he
      cases he
    | error problem =>
      rw [hcheck] at he
      obtain ⟨before, r, after, problem, hrs, hbefore, hr, hproblem, rfl⟩ :=
        Replacement.checkReplacements_eq_error hcheck
      exact ⟨before, r, after, problem, hrs, hbefore, hr, hproblem, (Except.error.inj he).symm⟩

/-- A base is built first, then replacements are made in it. -/
theorem build_edited_eq {defined : Definitions} {plan : Plan} {store store' : Store} {base : Source}
    (h : build defined plan store = .ok base store') (rs : List Replacement) :
    build defined (.edited plan rs) store = editedNode base rs store' := by
  rw [build]
  simp only [bind, EStateM.bind, h]

/-- **In a run, the text that replacements are checked against** is that of the base. -/
theorem textOf_base {past later : List Request} {plan : Plan} {rs : List Replacement} {q : Query}
    (hformed : ∀ r ∈ past ++ .query (.edited plan rs) q :: later, r.Formed)
    (hfree : ContentHash.CollisionFree
      (runAll {} (past ++ .query (.edited plan rs) q :: later)).2.store.hashed)
    {base : Source} {store : Store}
    (hbuild : build (runAll {} past).2.defined plan { (runAll {} past).2.store with notices := [] } =
      .ok base store) :
    (textOf base store).1 = base.text := by
  have hquery : (Plan.edited plan rs).Formed :=
    hformed (.query (.edited plan rs) q) (List.mem_append_right _ List.mem_cons_self)
  have hplan : plan.Formed := by
    cases hquery with
    | edited hplan _ => exact hplan
  obtain ⟨hsound, hlog⟩ := sound_of_runAll hformed hfree
  obtain ⟨-, hbuilt⟩ := build_builds hfree plan hplan (fun _ _ => mem_sourcesOf) _
    ((backed_upheld hfree).start hsound.1)
  unfold outcome at hbuilt
  rw [hbuild] at hbuilt
  obtain ⟨nodes, hserves, hheld⟩ := hbuilt
  obtain ⟨-, -, hread⟩ := textOf_reads (hheld base List.mem_cons_self) store hserves
  -- what is hashed for the text is hashed in the run
  have hhashed := hashed_build_subset hfree hsound hquery q
  rw [outcome, build_edited_eq hbuild, ← outcome, (outcome_editedNode base rs store).2] at hhashed
  exact hread fun _ h => hlog (hhashed h)

/-- **Applicable replacements are made, and no others.**  Where replacements are applicable to a text,
making them exchanges their ranges one by one, the last one first; the length of the text changes by
what is gained by them, and its pieces make it up and have something in them each.  Whatever is
remembered of a source, replacements are made in it if they are applicable to its text as it is asked
for then; otherwise the first one is reported with which they are not.  In every run of well-formed
requests that text is the text of the source, and a request that needs the replacements is answered with
the report, as long as no two streams of bytes that have been hashed in the run share a digest. -/
theorem replaced_if_applicable :
    (∀ (t : Text) (rs : List Replacement), Replacement.Applicable t rs →
      Replacement.splice t rs = rs.foldr Replacement.exchange t ∧
      ((Replacement.splice t rs).length : Int) = t.length + (rs.map Replacement.gain).sum ∧
      (Replacement.pieces t rs).flatten = Replacement.splice t rs ∧
      ∀ piece ∈ Replacement.pieces t rs, piece ≠ []) ∧
    (∀ (base : Source) (rs : List Replacement) (store : Store),
      base.Replaces (textOf base store).1 rs (outcome (editedNode base rs) store).1) ∧
    ∀ (past later : List Request) (plan : Plan) (rs : List Replacement) (q : Query),
      let run := runAll {} (past ++ .query (.edited plan rs) q :: later)
      let start := { (runAll {} past).2.store with notices := [] }
      (∀ r ∈ past ++ .query (.edited plan rs) q :: later, r.Formed) →
      ContentHash.CollisionFree run.2.store.hashed →
      ∀ base store, build (runAll {} past).2.defined plan start = .ok base store →
        let built := (outcome (build (runAll {} past).2.defined (.edited plan rs)) start).1
        base.Replaces base.text rs built ∧
          (∀ s, built = .ok s → s.text = Replacement.splice base.text rs) ∧
          ∀ e, built = .error e → (run.1[past.length]?).map Outcome.result = some (.error e) := by
  refine ⟨fun t rs => Replacement.splice_of_applicable, editedNode_replaces, ?_⟩
  intro past later plan rs q run start hformed hfree base store hbuild built
  have hbuilt : built = (outcome (editedNode base rs) store).1 := by
    show (outcome _ _).1 = _
    rw [outcome, build_edited_eq hbuild, ← outcome]
  have hreplaces := editedNode_replaces base rs store
  rw [← hbuilt, textOf_base hformed hfree hbuild] at hreplaces
  refine ⟨hreplaces, fun s hs => ?_, fun e he => ?_⟩
  · obtain ⟨id, edits, rfl, rfl⟩ := hreplaces.made s hs
    rw [Source.text, Edit.splice]
  · rw [getElem?_runAll, Option.map_some]
    cases hr : build (runAll {} past).2.defined (.edited plan rs) start with
    | ok s t =>
      simp only [built, outcome, hr] at he
      cases he
    | error e' t =>
      simp only [built, outcome, hr] at he
      rw [run_query_of_error hr q, Except.error.inj he]

/-- Insertions, adjacent ranges and a range without new content are made; of ranges in a remembered text
the second one overlaps the first. -/
theorem replaced_if_applicable_overlap :
    let past : List Request := [.define "k" (.kept (.plain "let x = 1;"))]
    let adjacent : List Replacement :=
      [.insertAt 0 ">" none, ⟨0, 2, "X", none⟩, ⟨2, 4, "", none⟩, .insertAt 4 "<" none]
    let overlapping : List Replacement := [⟨4, 5, "y", none⟩, ⟨4, 6, "z", none⟩, ⟨6, .nan, "", none⟩]
    Replacement.splice "abcd" adjacent = adjacent.foldr Replacement.exchange "abcd" ∧
      ∃ r ∈ overlapping, ∃ problem place,
        ((runAll {} (past ++ [.query (.edited (.ref "k") overlapping) .text])).1[1]?).map
          Outcome.result = some (.error (.construction (.replacement r problem place))) := by
  intro past adjacent overlapping
  have hformed : ∀ r ∈ past ++ [.query (.edited (.ref "k") overlapping) .text], r.Formed := by
    simp only [past, List.cons_append, List.nil_append, List.forall_mem_cons]
    refine ⟨.kept (.plain rfl), .edited (.ref "k") ?_, by simp⟩
    simp only [overlapping, List.forall_mem_cons]
    exact ⟨⟨rfl, by simp⟩, ⟨rfl, by simp⟩, ⟨rfl, by simp⟩, by simp⟩
  have hfree : ContentHash.CollisionFree
      (runAll {} (past ++ [.query (.edited (.ref "k") overlapping) .text])).2.store.hashed :=
    ContentHash.collisionFree_of_forall_eq [] (by decide +kernel)
  obtain ⟨hsplice, -, hrun⟩ := replaced_if_applicable
  obtain ⟨hreplaces, -, hanswer⟩ :=
    hrun past [] (.ref "k") overlapping .text hformed hfree (.kept 0 (.plain "let x = 1;")) _ rfl
  refine ⟨(hsplice "abcd" adjacent (by decide)).1, ?_⟩
  cases hbuilt : (outcome (build (runAll {} past).2.defined (.edited (.ref "k") overlapping))
      { (runAll {} past).2.store with notices := [] }).1 with
  | ok s =>
    have happlicable := hreplaces.accepted.mp ⟨s, hbuilt⟩
    exact absurd happlicable (by decide +kernel)
  | error e =>
    obtain ⟨before, r, after, problem, hrs, -, -, -, rfl⟩ := hreplaces.reported e hbuilt
    refine ⟨r, ?_, problem, _, hanswer _ hbuilt⟩
    rw [hrs]
    exact List.mem_append_right _ List.mem_cons_self

end Session

end Provenance
