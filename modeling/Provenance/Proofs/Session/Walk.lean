/-
# Composing with faithful memory

A walk with faithful memory composes a source to a result with its text.  The result is the one that the
source has without memory, or the walk fails with the same error, if no generated text has been hashed
that may inherit a further source.  A remembered result may have been computed under another limit and at
another depth; it is used only where it fits, and there it is the same.

The main facts:

* `once_composes` : a result that a walk remembers is the one it would compute;
* `stored_gives` : a result from a cell or from the cache by content is that of the node;
* `walk_composes`, `compose_attains` : walking with memory is composing.
-/
import Provenance.Proofs.Session.Render
import Provenance.Session.Walk

namespace Provenance.Session

variable {hashed : List (List Text)} {nodes : NodeId → Option Source}

/-! ## Walks -/

instance : HasStore Walk := ⟨Walk.store⟩

/-- A walk serves some nodes if its store does, and if the results that it remembers are those of the
nodes. -/
structure Walk.Serves (hashed : List (List Text)) (nodes : NodeId → Option Source) (w : Walk) :
    Prop where
  store : w.store.Serves hashed nodes
  results : w.store.hashed ⊆ hashed → ∀ id c, w.results.lookup id = some c →
    ∃ s, nodes id = some s ∧ s.HasResult hashed c

/-- An action on the store of a walk. -/
theorem Gives.onWalk {ε α : Type} {m : EStateM ε Store α} {Q : Except ε α → Prop}
    (h : Gives hashed (Store.Serves hashed nodes) m Q) :
    Gives hashed (Walk.Serves hashed nodes) (Walk.storePart.run m) Q := by
  refine Meets.run h (fun _ => rfl) (fun _ _ => rfl) (fun w hw => hw.store) ?_
  rintro w r t hw hlog ⟨ht, hr⟩
  exact ⟨⟨ht, fun hsub => hw.results fun _ h => hsub (hlog h)⟩, hr⟩

theorem Yields.onWalk {ε α : Type} {m : EStateM ε Store α} {x : Except ε α}
    (h : Yields hashed (Store.Serves hashed nodes) m x) :
    Yields hashed (Walk.Serves hashed nodes) (Walk.storePart.run m) x := Gives.onWalk h

/-- Telling something changes nothing that is remembered. -/
theorem tell_yields (notices : List Notice) :
    Yields hashed (Walk.Serves hashed nodes) (tell notices) (.ok ()) := by
  intro w hw
  refine ⟨fun _ h => h, ⟨?_, hw.results⟩, fun _ => rfl⟩
  exact hw.store.of_eq rfl rfl (List.Subset.refl _) (fun _ _ h => h) fun _ _ h => h

/-- An action composes a source: its result has the text of the source, and it is the one without memory
if no generated text has been hashed that may inherit a further source. -/
def Composes (hashed : List (List Text)) (nodes : NodeId → Option Source) (limit : Number) (depth : Nat)
    (s : Source) (action : Step Composition) : Prop :=
  Attains hashed (Walk.Serves hashed nodes) action (ContentHash.Overt hashed)
    (fun c => c.text = s.text) (s.compositionAt limit depth)

/-! ## Remembered results -/

section Once

variable {limit : Number} {depth : Nat} {id : NodeId} {s : Source} {compute : Step Composition}

/-- A new result is remembered for the node. -/
theorem anew_composes (hnode : nodes id = some s)
    (hcompute : Composes hashed nodes limit depth s compute) :
    Composes hashed nodes limit depth s (once.anew id compute) := by
  unfold Composes Attains at hcompute ⊢
  refine Gives.bind hcompute (fun c => ?_) fun e he => he
  rintro w ⟨hw, hc⟩
  refine ⟨fun _ h => h, ⟨⟨hw.store, fun hsub other r hr => ?_⟩, hc⟩, hc⟩
  by_cases hother : other = id
  · subst hother
    obtain rfl : c = r := Option.some.inj ((Assoc.lookup_insert_self _ _ _).symm.trans hr)
    obtain ⟨htext, hresult⟩ := hc hsub
    exact ⟨s, hnode, htext c rfl, fun hovert =>
      Source.unlimited_of_compositionAt (hresult hovert).symm⟩
  · exact hw.results hsub other r ((Assoc.lookup_insert_of_ne hother _ _).symm.trans hr)

/-- **A result that a walk remembers is the one it would compute**, if it fits. -/
theorem once_composes (hnode : nodes id = some s)
    (hcompute : Composes hashed nodes limit depth s compute) :
    Composes hashed nodes limit depth s (once limit depth id compute) := by
  have hanew := anew_composes hnode hcompute
  unfold Composes Attains at hanew ⊢
  unfold once
  apply Gives.get_bind
  intro w hw
  cases hfound : w.results.lookup id with
  | none => exact Gives.imp hanew fun r hr _ => hr
  | some c =>
    dsimp only
    by_cases hfits : fits limit depth c = true
    · rw [if_pos hfits]
      apply Gives.pure
      intro hsub
      -- the remembered result is the node's under some limit, and it fits under this one
      obtain ⟨s', hs', htext, hc⟩ := hw.results hsub id c hfound
      obtain rfl := Option.some.inj (hnode.symm.trans hs')
      refine ⟨fun v hv => (by rw [← Except.ok.inj hv, htext]), fun hovert => ?_⟩
      exact (Source.compositionAt_of_unlimited (hc hovert) (of_decide_eq_true hfits)).symm
    · rw [if_neg hfits]
      exact Gives.imp hanew fun r hr _ => hr

/-- A result stands for a source if it is the source's under some limit, or the error that stops
composing the source. -/
def StandsFor (hashed : List (List Text)) (limit : Number) (depth : Nat) (s : Source) :
    Except ComposeError Composition → Prop
  | .ok c => s.HasResult hashed c
  | .error e => ContentHash.Overt hashed → s.compositionAt limit depth = .error e

/-- What an action that composes a source results in stands for the source. -/
theorem standsFor_of_composes {r : Except ComposeError Composition}
    (h : (∀ c, r = .ok c → c.text = s.text) ∧
      (ContentHash.Overt hashed → r = s.compositionAt limit depth)) :
    StandsFor hashed limit depth s r := by
  obtain ⟨htext, hresult⟩ := h
  cases r with
  | ok c => exact ⟨htext c rfl, fun hovert => Source.unlimited_of_compositionAt (hresult hovert).symm⟩
  | error e => exact fun hovert => (hresult hovert).symm

/-- A result from the cache by content stands for every source with the content hash. -/
theorem fetchComposed_gives (hfree : ContentHash.CollisionFree hashed) (key : ContentHash)
    (hcompute : Composes hashed nodes limit depth s compute) :
    Gives hashed
      (fun w => Walk.Serves hashed nodes w ∧
        (log w ⊆ hashed → key = s.contentHash ∧ s.HashedIn hashed))
      (Cache.fetch Walk.composePart key compute) (StandsFor hashed limit depth s) := by
  unfold Composes Attains at hcompute
  refine Gives.fetch (fun _ _ => rfl) ?_ ?_ ?_ (Gives.assuming (Gives.imp hcompute ?_))
  · rintro w ⟨hw, hkey⟩
    have hstore : ∀ c : Cache Composition, c.get? = w.store.composeCache.get? →
        Store.Serves hashed nodes { w.store with composeCache := c } := by
      intro c hc
      refine hw.store.of_eq rfl rfl (List.Subset.refl _) (fun _ _ h => h) fun key r hr => ?_
      rw [← hc]
      exact hr
    exact ⟨⟨⟨hstore _ rfl, hw.results⟩, hkey⟩, ⟨⟨hstore _ rfl, hw.results⟩, hkey⟩⟩
  · rintro w c ⟨hw, hkey⟩ hsub hfound
    obtain ⟨rfl, hhashed⟩ := hkey hsub
    -- the cached result is that of some source `t` with the same content hash
    obtain ⟨t, ht, heq, htext, hc⟩ := (hw.store.faithful hsub).composed _ c hfound
    obtain ⟨htexts, hresults⟩ := Source.equal_of_contentHash_eq hfree hhashed ht heq.symm
    exact ⟨by rw [htext, htexts], fun hovert => (hresults hovert _ _).trans (hc hovert)⟩
  · rintro w c ⟨hw, hkey⟩ hc
    refine ⟨⟨hw.store.insertComposed fun hsub => ?_, hw.results⟩, hkey⟩
    obtain ⟨rfl, hhashed⟩ := hkey hsub
    exact ⟨s, hhashed, rfl, hc hsub⟩
  · exact fun r hr _ => standsFor_of_composes hr

/-- **A result from a cell, or from the cache by content, stands for the node.** -/
theorem stored_gives (hfree : ContentHash.CollisionFree hashed) (hnode : nodes id = some (.kept id s))
    {contentHash : Reader ContentHash}
    (hhash : Reads hashed (Store.Serves hashed nodes) contentHash
      fun f => f = s.contentHash ∧ s.HashedIn hashed)
    (hcompute : Composes hashed nodes limit depth s compute) :
    Gives hashed (Walk.Serves hashed nodes) (stored id contentHash compute)
      (StandsFor hashed limit depth s) := by
  unfold stored
  apply Gives.get_bind
  intro w hw
  cases hfound : (w.store.cell id).composed with
  | some c =>
    exact Gives.pure fun hsub => ((hw.store.faithful hsub).cell id s hnode).composed c hfound
  | none =>
    have hremember := Reads.remember Slot.contentHash_holds hnode hhash
    apply Gives.bind_ok (Gives.onWalk hremember.act)
    intro key
    refine Gives.bind (fetchComposed_gives hfree key hcompute) (fun c => ?_) fun e he _ => he
    rintro w ⟨⟨hw, hkey⟩, hc⟩
    refine ⟨fun _ h => h, ⟨⟨⟨?_, hw.results⟩, hkey⟩, hc⟩, fun hsub _ => hc hsub⟩
    exact hw.store.updateCell hnode fun hsub hcell => Slot.composed_holds.put _ c hcell (hc hsub)

end Once

/-! ## The walk -/

section Steps

variable {limit : Number} {depth : Nat}

/-- A generated text is finished as it is without memory. -/
theorem finishGenerated_yields (hfree : ContentHash.CollisionFree hashed) (node : GeneratedText)
    (results : List (Option Composition)) :
    Yields hashed (Walk.Serves hashed nodes) (finishGenerated node results)
      (do
        let table ← (MappingTable.decode node.map.mappings).mapError .decode
        (Composition.generate node results table).2.mapError .resolve) := by
  unfold finishGenerated
  have hdecode : Yields hashed (Walk.Serves hashed nodes) _ _ :=
    Yields.onWalk (decodeKept_yields hfree node.map.mappings)
  apply Yields.bind (Yields.adaptExcept hdecode ComposeError.decode)
  intro table
  obtain ⟨gaps, result⟩ := Composition.generate node results table
  have hsettle : Yields hashed (Walk.Serves hashed nodes)
      (settle ComposeError.resolve result) (result.mapError .resolve) := Yields.settle _ _
  refine Gives.get_bind fun w hw => Gives.imp ?_ fun r hr _ => hr
  cases w.store.tracing with
  | true => exact Yields.after (tell_yields _) fun _ => hsettle
  | false => exact hsettle

/-- The composed results of some sources have their texts one by one, if each of them is right. -/
theorem walkAll_attains {ss : List Source}
    (h : ∀ s ∈ ss, Composes hashed nodes limit depth s (walk limit depth s)) :
    Attains hashed (Walk.Serves hashed nodes) (walkAll limit depth ss) (ContentHash.Overt hashed)
      (List.Forall₂ (fun s c => c.text = s.text) ss) (Source.compositionsAt limit depth ss) := by
  induction ss with
  | nil =>
    rw [walkAll, Source.compositionsAt]
    exact Attains.pure .nil
  | cons s rest ih =>
    obtain ⟨hs, hrest⟩ := List.forall_mem_cons.mp h
    rw [walkAll, Source.compositionsAt]
    refine Attains.bind hs fun first => Attains.bind (ih hrest) fun others => ?_
    exact Attains.pure fun hothers hfirst => .cons hfirst hothers

/-- The composed result of the further source under a key, if those of all are right. -/
theorem walkInput_attains {key : Text} {inputs : List (Text × Source)}
    (h : ∀ input ∈ inputs, Composes hashed nodes limit depth input.2 (walk limit depth input.2)) :
    Attains hashed (Walk.Serves hashed nodes) (walkInput limit depth key inputs)
      (ContentHash.Overt hashed) (fun _ => True)
      (Source.inputCompositionAt limit depth key inputs) := by
  induction inputs with
  | nil =>
    rw [walkInput, Source.inputCompositionAt]
    exact Attains.throw _
  | cons input rest ih =>
    obtain ⟨k, s⟩ := input
    obtain ⟨hs, hrest⟩ := List.forall_mem_cons.mp h
    rw [walkInput, Source.inputCompositionAt]
    by_cases hk : k = key
    · rw [if_pos hk, if_pos hk]
      exact Attains.imp hs fun _ _ => trivial
    · rw [if_neg hk, if_neg hk]
      exact ih hrest

end Steps

/-- **Walking with memory is composing.** -/
theorem walk_composes (hfree : ContentHash.CollisionFree hashed) (limit : Number) (depth : Nat)
    {s : Source} (h : s.Held nodes) : Composes hashed nodes limit depth s (walk limit depth s) := by
  induction h generalizing depth with
  | @plain t hformed =>
    rw [walk, Composes, Source.compositionAt, Source.text]
    exact Attains.pure rfl
  | @file t name hformed =>
    rw [walk, Composes, Source.compositionAt, Source.text]
    exact Attains.pure rfl
  | @generated id node inputs h hformed hinputs ih =>
    rw [walk]
    apply once_composes h
    rw [Composes, Source.compositionAt, Source.text]
    refine Attains.after (tell_yields _) fun _ => ?_
    refine Attains.bind (Attains.mapM fun key _ => ?_) fun results =>
      Attains.of_yields (finishGenerated_yields hfree node results) fun c hc _ => ?_
    · cases key with
      | none => exact Attains.pure trivial
      | some key =>
        dsimp only
        split
        · exact Attains.throw _
        · have hmap : (Source.inputCompositionAt limit (depth + 1) key inputs).map some =
              (Source.inputCompositionAt limit (depth + 1) key inputs >>= fun c => .ok (some c)) := by
            cases Source.inputCompositionAt limit (depth + 1) key inputs <;> rfl
          rw [hmap]
          exact Attains.bind (walkInput_attains fun input hinput => ih input hinput (depth + 1))
            fun c => Attains.pure fun _ => trivial
    · obtain ⟨table, -, hgenerate⟩ := bind_eq_ok_iff.mp hc
      exact Composition.text_generate (mapError_eq_ok_iff.mp hgenerate)
  | @joined id children h hchildren ih =>
    rw [walk]
    apply once_composes h
    rw [Composes, Source.compositionAt, Source.text]
    refine Attains.bind (walkAll_attains fun s hs => ih s hs depth) fun results =>
      Attains.pure fun htexts => ?_
    rw [Composition.text_join]
    exact Source.flatMap_text_eq_textAll htexts fun s _ c hc => hc
  | @edited id base edits h hformed hbase ih =>
    rw [walk]
    apply once_composes h
    rw [Composes, Source.compositionAt, Source.text]
    refine Attains.bind (ih depth) fun result => Attains.pure fun htext => ?_
    rw [Composition.text_edit, htext]
  | @kept id child h hchild ih =>
    rw [walk]
    apply once_composes h
    rw [Composes, Source.compositionAt, Source.text]
    refine Gives.bind (stored_gives hfree h (contentHashOf_reads hchild) (ih depth)) (fun c => ?_) ?_
    · by_cases hfits : fits limit depth c = true
      · rw [if_pos hfits]
        refine Gives.assuming (Gives.pure fun hc => ⟨fun v hv => ?_, fun hovert => ?_⟩)
        · rw [← Except.ok.inj hv]
          exact hc.text
        · exact (Source.compositionAt_of_unlimited (hc.unlimited hovert)
            (of_decide_eq_true hfits)).symm
      · rw [if_neg hfits]
        have hanew := ih depth
        unfold Composes Attains at hanew
        exact Gives.assuming (Gives.imp hanew fun r hr _ => hr)
    · exact fun e he => ⟨fun v hv => (by cases hv), fun hovert => (he hovert).symm⟩

/-- **Composing a source with memory is composing it.** -/
theorem compose_attains (hfree : ContentHash.CollisionFree hashed) (limit : Number) {s : Source}
    (h : s.Held nodes) :
    Attains hashed (Store.Serves hashed nodes) (compose limit s) (ContentHash.Overt hashed)
      (fun c => c.text = s.text) (s.compose limit) := by
  intro store hstore
  have hstart : Walk.Serves hashed nodes ⟨store, []⟩ := ⟨hstore, fun _ _ _ hr => by cases hr⟩
  have hwalk := walk_composes hfree limit 0 h ⟨store, []⟩ hstart
  unfold outcome at hwalk ⊢
  unfold compose
  cases hr : walk limit 0 s ⟨store, []⟩ with
  | ok c w =>
    rw [hr] at hwalk
    exact ⟨hwalk.1, hwalk.2.1.store, hwalk.2.2⟩
  | error e w =>
    rw [hr] at hwalk
    exact ⟨hwalk.1, hwalk.2.1.store, hwalk.2.2⟩

end Provenance.Session
