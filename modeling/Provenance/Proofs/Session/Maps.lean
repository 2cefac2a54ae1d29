/-
# Source maps with faithful memory

With faithful memory the source map of a source, alone or with its text, is the one that is made
without memory if no generated text has been hashed that may inherit a further source.  A node that
remembers its maps adds the fields of the document to the stored one; that is the same as making the map
with these fields.

The main facts:

* `toMap_withFields` : document fields may be added to a map that was made without them;
* `mapOf_attains`, `textAndMapOf_attains` : the source map of a source with memory.
-/
import Provenance.Proofs.Session.Walk
import Provenance.Session.Maps

namespace Provenance

/-- The source map of a source, without memory. -/
def Source.mapWith (s : Source) (options : OutputOptions) : Except Fault (Option SourceMap) := do
  let c ← (s.compose options.limit).mapError .compose
  (c.toMap options).mapError .map

/-- The origins that a map gives for some positions, without memory. -/
def SourceMap.positionsOf (m : SourceMap) (places : List (Number × Number)) :
    Except Fault (List (Option OriginPosition)) :=
  places.mapM fun place =>
    ((MappingTable.decode m.mappings).mapError Fault.decode).map (m.positionIn · place.1 place.2)

/-- The origins of some positions of a source, without memory; none if the source has no map. -/
def Source.positionsWith (s : Source) (options : OutputOptions) (places : List (Number × Number)) :
    Except Fault (Option (List (Option OriginPosition))) := do
  match ← s.mapWith options with
  | none => .ok none
  | some m => do
    let found ← m.positionsOf places
    .ok (some found)

theorem Source.mapWith_of_compose {s : Source} {options : OutputOptions} {c : Composition}
    (h : (s.compose options.limit).mapError Fault.compose = .ok c) :
    s.mapWith options = (c.toMap options).mapError .map := by
  unfold mapWith
  rw [h]
  rfl

/-- Document fields may be added to a map that was made without them. -/
theorem Composition.toMap_withFields (c : Composition) (options : OutputOptions) :
    c.toMap options =
      (c.toMap { columns := options.columns }).map (Option.map fun m => m.withFields options) := by
  have htable : c.outputTable { columns := options.columns } = c.outputTable options := rfl
  unfold Composition.toMap
  rw [htable]
  by_cases hlocations : (c.outputTable options).locations = []
  · rw [if_pos hlocations, if_pos hlocations]
    rfl
  · rw [if_neg hlocations, if_neg hlocations]
    cases lookupAll c.sources.names (c.outputTable options).usedSources with
    | error e => rfl
    | ok sources =>
      cases lookupAll c.names (c.outputTable options).usedNames with
      | error e => rfl
      | ok names =>
        cases encodeTable (c.outputTable options).compact with
        | error e => rfl
        | ok mappings =>
          show Except.ok (some _) = Except.ok (some (SourceMap.withFields _ options))
          unfold SourceMap.withFields
          rw [Option.or_none, Option.or_none]

/-- What a node that remembers is composed to, its child is under some limit; and the node's map is the
one made without document fields, with the fields added. -/
theorem Source.mapWith_kept {id : NodeId} {child : Source} {options : OutputOptions} {c : Composition}
    (h : ((Source.kept id child).compose options.limit).mapError Fault.compose = .ok c) :
    child.unlimited = .ok c ∧ (Source.kept id child).mapWith options =
      ((c.toMap { columns := options.columns }).map
        (Option.map fun m => m.withFields options)).mapError .map := by
  rw [mapWith_of_compose h, c.toMap_withFields]
  have hcompose := mapError_eq_ok_iff.mp h
  rw [compose, compositionAt_kept] at hcompose
  exact ⟨unlimited_of_compositionAt hcompose, rfl⟩

namespace Session

variable {hashed : List (List Text)} {nodes : NodeId → Option Source}

/-- The composed result of a source. -/
theorem composedOf_attains (hfree : ContentHash.CollisionFree hashed) {s : Source} (h : s.Held nodes)
    (options : OutputOptions) :
    Attains hashed (Store.Serves hashed nodes) (composedOf s options) (ContentHash.Overt hashed)
      (fun c => c.text = s.text) ((s.compose options.limit).mapError .compose) :=
  Attains.adaptExcept (compose_attains hfree options.limit h) Fault.compose

/-- **The source map of a node that remembers.**  The stored map was made from the same result, under
whatever limit. -/
theorem keptMapOf_attains (hfree : ContentHash.CollisionFree hashed) {id : NodeId} {child : Source}
    (hnode : nodes id = some (.kept id child)) (hchild : child.Held nodes) (options : OutputOptions) :
    Attains hashed (Store.Serves hashed nodes) (keptMapOf id child options) (ContentHash.Overt hashed)
      (fun _ => True) ((Source.kept id child).mapWith options) := by
  have hcompose := composedOf_attains hfree (.kept hnode hchild) options
  unfold Attains at hcompose ⊢
  unfold keptMapOf
  refine Gives.bind hcompose (fun c => ?_) ?_
  · apply Gives.get_bind
    intro s hs
    cases hfound : (Slot.map options.columns).get (s.cell id) with
    | some m =>
      -- the stored map was made from a result of the child, and the child has one result only
      apply Gives.pure
      refine fun hsub => ⟨fun _ _ => trivial, fun hovert => ?_⟩
      obtain ⟨r, hr, hm⟩ := ((hs.1.faithful hsub).cell id child hnode).maps _ m hfound hovert
      obtain ⟨hc, hmap⟩ := Source.mapWith_kept ((hs.2 hsub).2 hovert).symm
      obtain rfl := Except.ok.inj (hr.symm.trans hc)
      rw [hmap, hm]
      rfl
    | none =>
      -- a new map is stored, unless it cannot be made
      refine Gives.bind (Yields.settle Fault.map _) (fun m => ?_) fun e he hsub => ?_
      · rintro t ⟨⟨ht, hc⟩, hm⟩
        refine ⟨fun _ h => h, ⟨⟨?_, hc⟩, hm⟩,
          fun hsub hsub' => ⟨fun _ _ => trivial, fun hovert => ?_⟩⟩
        · apply ht.updateCell hnode
          intro hsub hcell
          apply (Slot.map_holds options.columns).put _ m hcell
          intro hovert
          have hresult := (hc hsub).2 hovert
          exact ⟨c, (Source.mapWith_kept hresult.symm).1, mapError_eq_ok_iff.mp (hm hsub).symm⟩
        · have hresult := (hc hsub).2 hovert
          rw [(Source.mapWith_kept hresult.symm).2, mapError_eq_ok_iff.mp (hm hsub).symm]
          rfl
      · refine ⟨fun _ _ => trivial, fun hovert => ?_⟩
        have hresult := (hs.2 hsub).2 hovert
        rw [(Source.mapWith_kept hresult.symm).2]
        cases htoMap : c.toMap { columns := options.columns } with
        | error e' =>
          rw [htoMap] at he
          exact he
        | ok m =>
          rw [htoMap] at he
          cases he
  · rintro e ⟨-, he⟩
    refine ⟨fun _ _ => trivial, fun hovert => ?_⟩
    unfold Source.mapWith
    rw [← he hovert]
    rfl

/-- **The source map of a source** with memory is the one without. -/
theorem mapOf_attains (hfree : ContentHash.CollisionFree hashed) {s : Source} (h : s.Held nodes)
    (options : OutputOptions) :
    Attains hashed (Store.Serves hashed nodes) (mapOf s options) (ContentHash.Overt hashed)
      (fun _ => True) (s.mapWith options) := by
  cases s with
  | kept id child =>
    cases h with
    | kept h hchild => exact keptMapOf_attains hfree h hchild options
  | _ =>
    refine Attains.bind (composedOf_attains hfree h options) fun c => ?_
    exact Attains.of_yields (Yields.settle _ _) fun _ _ _ => trivial

/-- The text of a composed result is that of its source. -/
theorem textAndMap_eq (s : Source) (options : OutputOptions) :
    (do
      let c ← (s.compose options.limit).mapError Fault.compose
      let m ← (c.toMap options).mapError Fault.map
      .ok (c.text, m)) = (s.mapWith options).map fun m => (s.text, m) := by
  unfold Source.mapWith
  cases hc : s.compose options.limit with
  | error e => rfl
  | ok c =>
    rw [← Source.text_of_compositionAt hc]
    cases hm : c.toMap options with
    | error e => simp [hm, bind, Except.bind, Except.map]
    | ok m => simp [hm, bind, Except.bind, Except.map]

/-- **The text of a source and its source map** with memory are those without. -/
theorem textAndMapOf_attains (hfree : ContentHash.CollisionFree hashed) {s : Source} (h : s.Held nodes)
    (options : OutputOptions) :
    Attains hashed (Store.Serves hashed nodes) (textAndMapOf s options) (ContentHash.Overt hashed)
      (fun found => found.1 = s.text) ((s.mapWith options).map fun m => (s.text, m)) := by
  cases s with
  | kept id child =>
    cases h with
    | kept h hchild =>
      have hmap : ((Source.kept id child).mapWith options).map
          (fun m => ((Source.kept id child).text, m)) =
            ((Source.kept id child).mapWith options >>= fun m =>
              (.ok (Source.kept id child).text >>= fun t => .ok (t, m))) := by
        cases (Source.kept id child).mapWith options <;> rfl
      rw [hmap]
      refine Attains.bind (keptMapOf_attains hfree h hchild options) fun m => ?_
      refine Attains.bind (Attains.of_yields (A := fun t => t = (Source.kept id child).text)
        (textOf_reads (.kept h hchild)).act_eq fun t ht => (Except.ok.inj ht).symm) fun t => ?_
      exact Attains.pure fun ht _ => ht
  | _ =>
    rw [← textAndMap_eq]
    refine Attains.bind (composedOf_attains hfree h options) fun c => ?_
    refine Attains.bind (Attains.of_yields (A := fun _ => True)
      (Yields.settle Fault.map (c.toMap options)) fun _ _ => trivial) fun m => ?_
    exact Attains.pure fun _ htext => htext

/-! ## Positions -/

/-- The origins of some positions with memory are those without. -/
theorem positionsIn_yields (hfree : ContentHash.CollisionFree hashed) (m : SourceMap)
    (places : List (Number × Number)) :
    Yields hashed (Store.Serves hashed nodes) (positionsIn m places) (m.positionsOf places) := by
  unfold SourceMap.positionsOf
  induction places with
  | nil => exact Yields.pure []
  | cons place rest ih =>
    obtain ⟨line, column⟩ := place
    have hstep : ∀ {β : Type} (x : Except Fault MappingTable)
        (k : Option OriginPosition → Except Fault β),
        (x.map (m.positionIn · line column) >>= k) =
          x >>= fun table => k (m.positionIn table line column) := by
      intro β x k
      cases x <;> rfl
    rw [positionsIn, List.mapM_cons, hstep]
    apply Yields.bind (Yields.adaptExcept (decodeKept_yields hfree _) Fault.decode)
    intro table
    exact Yields.bind ih fun others => Yields.pure _

/-- **The origins of some positions of a source** with memory are those without. -/
theorem positionsOf_attains (hfree : ContentHash.CollisionFree hashed) {s : Source} (h : s.Held nodes)
    (options : OutputOptions) (places : List (Number × Number)) :
    Attains hashed (Store.Serves hashed nodes) (positionsOf s options places)
      (ContentHash.Overt hashed) (fun _ => True) (s.positionsWith options places) := by
  unfold positionsOf Source.positionsWith
  refine Attains.bind (mapOf_attains hfree h options) fun m => ?_
  cases m with
  | none => exact Attains.pure fun _ => trivial
  | some m =>
    exact Attains.of_yields (Yields.bind (positionsIn_yields hfree m places) fun found =>
      Yields.pure (some found)) fun _ _ _ => trivial

end Session

end Provenance
