/-
# Withheld contents

A generated text may withhold the content of the source that its map points to.  The content then comes
neither with the map nor with the text that is given for that source; but where a further source stands
for it, a gap supplies the text of the further source.

The main facts:

* `recorded_generated_withheld` : the content that is recorded for a withheld source is the text of the
  first gap under its name.
-/
import Provenance.Proofs.Composition.Contents
import Provenance.Proofs.Tree.Origins
import Provenance.Proofs.Tree.Regular

namespace Provenance

theorem GeneratedText.through?_eq_some_iff {node : GeneratedText}
    {results : List (Option Composition)} {o : Location} {index : Nat} {source : Text}
    {r : Composition} : node.through? results o = some (index, source, r) ↔
      o.source.toNat? = some index ∧
        (node.map.qualifiedSources.zip results)[index]? = some (source, some r) := by
  unfold through?
  simp only [Option.bind_eq_bind, Option.bind_eq_some_iff, Option.map_eq_some_iff, Prod.mk.injEq]
  constructor
  · rintro ⟨i, hi, ⟨s, result⟩, hentry, r', hr, rfl, rfl, rfl⟩
    exact ⟨hi, hr ▸ hentry⟩
  · rintro ⟨hi, hentry⟩
    exact ⟨index, hi, _, hentry, r, rfl, rfl, rfl, rfl⟩

namespace Source

open GeneratedText (isInside)

variable {limit : Number} {depth : Nat} {node : GeneratedText} {inputs : List (Text × Source)}
  {results : List (Option Composition)} {table : MappingTable} {c : Composition}

/-- The results that a map is traced through are tidy. -/
theorem tidy_of_through? (hresults : inputResults limit depth node inputs = .ok results) {o : Location}
    {e : Nat × Text × Composition} (he : e ∈ node.through? results o) : e.2.2.Tidy := by
  obtain ⟨-, hentry⟩ := GeneratedText.through?_eq_some_iff.mp he
  obtain ⟨plain, -, hresult⟩ := inputResults_spec hresults hentry
  generalize (inputs.lookup e.2.1).or (inputs.lookup plain) = further at hresult
  cases hresult with
  | some hr => exact compositionAt_tidy hr

/-- **Withheld contents come through gaps only.**  If no further source that is traced through records a
content for the source that a map points to, and its content is withheld, then what is recorded for it
is the text of the first gap under its name; without such a gap nothing is recorded, and no source map
of the result has a content for it. -/
theorem recorded_generated_withheld {id : NodeId} (hwithhold : node.withholdText = true)
    (hresults : inputResults limit depth node inputs = .ok results)
    (htable : MappingTable.decode node.map.mappings = .ok table)
    (hc : compositionAt limit depth (generated id node inputs) = .ok c)
    (hfurther : ∀ m ∈ table, isInside node.text m = true → ∀ o ∈ m.origin,
      ∀ e ∈ node.through? results o, e.2.2.sources.recorded node.name = none) :
    c.sources.recorded node.name =
        (table.filter (isInside node.text)).findSome? (node.gapText? results) ∧
      ((∀ m ∈ table, isInside node.text m = true → node.gapText? results m = none) →
        c.sources.recorded node.name = none ∧
        ∀ options M, c.toMap options = .ok (some M) → ∀ i : Nat,
          M.sources[i]? = some node.name → M.contentAt i = none) := by
  have hrecorded : c.sources.recorded node.name =
      (table.filter (isInside node.text)).findSome? (node.gapText? results) := by
    obtain ⟨results', table', hresults', htable', hgenerate⟩ := compositionAt_generated.mp hc
    obtain rfl := Except.ok.inj (hresults.symm.trans hresults')
    obtain rfl := Except.ok.inj (htable.symm.trans htable')
    exact Composition.recorded_withheld hgenerate hwithhold fun m hm hinside o ho e he =>
      ⟨(tidy_of_through? hresults he).sources, hfurther m hm hinside o ho e he⟩
  refine ⟨hrecorded, fun hgaps => ?_⟩
  have hnone : c.sources.recorded node.name = none := by
    rw [hrecorded, List.findSome?_eq_none_iff]
    intro m hm
    obtain ⟨hmem, hinside⟩ := List.mem_filter.mp hm
    exact hgaps m hmem hinside
  refine ⟨hnone, fun options M hM i hi => ?_⟩
  rw [Composition.contentAt_of_toMap (compositionAt_tidy hc) hM hi, hnone]

/-- A text that is given for a withheld source is recorded through a gap, and goes into the source
map. -/
theorem recorded_generated_withheld_gap :
    ∃ c M, compositionAt (32 : Nat) 0
        (generated 0 ⟨"a", "x.js", ⟨["x.js"], none, [], "AAAA", none, none⟩, some "secret", true, false⟩
          [("x.js", generated 1 ⟨"secret", "x.js", ⟨[], none, [], "", none, none⟩, none, false, false⟩ [])]) =
            .ok c ∧
      c.sources.recorded "x.js" = some "secret" ∧ c.toMap {} = .ok (some M) ∧
      M.sources = ["x.js"] ∧ M.contents = some [some ("secret" : Text)] := by
  have hresults : inputResults (32 : Nat) 0
      ⟨"a", "x.js", ⟨["x.js"], none, [], "AAAA", none, none⟩, some "secret", true, false⟩
      [("x.js", generated 1 ⟨"secret", "x.js", ⟨[], none, [], "", none, none⟩, none, false, false⟩ [])] =
        .ok [some ⟨"secret", [], {}, {}, 0⟩] := by decide +kernel
  have htable : MappingTable.decode "AAAA" = .ok [⟨0, 0, some ⟨0, 0, 0, none⟩⟩] := by decide +kernel
  have hc : compositionAt (32 : Nat) 0
      (generated 0 ⟨"a", "x.js", ⟨["x.js"], none, [], "AAAA", none, none⟩, some "secret", true, false⟩
        [("x.js", generated 1 ⟨"secret", "x.js", ⟨[], none, [], "", none, none⟩, none, false, false⟩ [])]) =
      .ok ⟨"a", [⟨0, 0, some ⟨0, 0, 0, none⟩⟩], ⟨[("x.js", some "secret")]⟩, {}, 1⟩ := by
    decide +kernel
  obtain ⟨hrecorded, -⟩ := recorded_generated_withheld rfl hresults htable hc (by decide +kernel)
  exact ⟨_, ⟨["x.js"], some [some ("secret" : Text)], [], "AAAA", none, none⟩, hc,
    hrecorded.trans (by decide +kernel), by decide +kernel, rfl, rfl⟩

end Source

end Provenance
