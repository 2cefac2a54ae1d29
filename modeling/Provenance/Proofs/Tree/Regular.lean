/-
# Regular results of source trees

Every constructed source whose maps have integers only is composed to a regular result, or is refused
because a chain of source maps is longer than the limit, or because what is found for a source of a map
is no source.

The main facts:

* `checkEntries_eq_ok_iff` : what the check of a map's entries asks for;
* `compositionAt_tidy` : the composed result of a source is tidy;
* `resolvable_of_integerMaps` : maps of integers list what their entries refer to;
* `refused_of_compositionAt` : why a source whose maps have integers only is not composed;
* `regularOutcome_compositionAt` : the outcome of composing a constructed source.
-/
import Provenance.Proofs.Mapping.Natural
import Provenance.Proofs.Tree.Bare
import Provenance.Proofs.Tree.Limit

namespace Provenance

/-! ## Checked entries -/

/-- Entries pass the check of a map if none refers to a source or a name beyond those listed. -/
theorem checkEntries_eq_ok_iff {name : Text} {sources names : Nat} {table : MappingTable} :
    checkEntries name sources names table = .ok () ↔
      ∀ m ∈ table, ∀ o ∈ m.origin, ¬ (sources : Number) ≤ o.source ∧
        ∀ n ∈ o.name, ¬ (names : Number) ≤ n := by
  induction table with
  | nil => simp [checkEntries]
  | cons m rest ih =>
    rw [checkEntries, List.forall_mem_cons, ← ih]
    cases m.origin with
    | none => simp
    | some o =>
      by_cases hsource : (sources : Number) ≤ o.source
      · simp [hsource]
      · cases hn : o.name with
        | none => simp [hsource, hn]
        | some n =>
          by_cases hname : (names : Number) ≤ n
          · simp [hsource, hn, hname]
          · simp [hsource, hn, hname]

/-- A decoded table of integers has naturals only. -/
theorem MappingTable.natural_of_integers {t : Text} {table : MappingTable} (h : decode t = .ok table)
    (hintegers : ∀ m ∈ table, ∀ x ∈ m.fields.toList, x.isInteger = true) :
    ∀ m ∈ table, m.Natural := by
  intro m hm
  obtain ⟨hline, hreached⟩ := reached_of_decode h m hm
  refine List.forall_mem_cons.mpr ⟨hline, fun x hx => ?_⟩
  rcases hreached x hx with rfl | ⟨n, -, hn⟩
  · exact absurd (hintegers m hm _ hx) (by decide)
  · exact ⟨n, hn⟩

namespace Source

/-! ## Tidy results -/

/-- **The composed result of a source is tidy**, whatever its maps are. -/
theorem compositionAt_tidy {limit : Number} {depth : Nat} {s : Source} {c : Composition}
    (h : compositionAt limit depth s = .ok c) : c.Tidy := by
  induction s using partsInduction generalizing c with
  | plain t =>
    rw [compositionAt] at h
    obtain rfl := Except.ok.inj h
    exact Composition.plain_tidy t
  | file t name =>
    rw [compositionAt] at h
    obtain rfl := Except.ok.inj h
    exact Composition.file_tidy t name
  | generated id node inputs _ =>
    obtain ⟨results, table, -, -, hc⟩ := compositionAt_generated.mp h
    exact Composition.generate_tidy hc
  | joined id children _ =>
    obtain ⟨cs, -, rfl⟩ := compositionAt_joined.mp h
    exact Composition.join_tidy cs
  | edited id base edits ih =>
    obtain ⟨b, hb, rfl⟩ := compositionAt_edited.mp h
    exact Composition.edit_tidy (ih hb) edits
  | kept id child ih =>
    rw [compositionAt] at h
    exact ih h

/-! ## Composing that succeeds -/

/-- The map of a source, if it is a generated text, decodes to integers. -/
def IntegerMap : Source → Prop
  | generated _ node _ =>
    ∀ table ∈ (MappingTable.decode node.map.mappings).toOption, ∀ m ∈ table,
      ∀ x ∈ m.fields.toList, x.isInteger = true
  | _ => True

instance : (s : Source) → Decidable s.IntegerMap
  | generated _ node _ => inferInstanceAs (Decidable (∀ table ∈
      (MappingTable.decode node.map.mappings).toOption, ∀ m ∈ table, ∀ x ∈ m.fields.toList,
        x.isInteger = true))
  | plain _ => inferInstanceAs (Decidable True)
  | file _ _ => inferInstanceAs (Decidable True)
  | joined _ _ => inferInstanceAs (Decidable True)
  | edited _ _ _ => inferInstanceAs (Decidable True)
  | kept _ _ => inferInstanceAs (Decidable True)

/-- All maps in a source decode to integers. -/
def IntegerMaps (s : Source) : Prop := ∀ u ∈ s.nodes, u.IntegerMap

instance (s : Source) : Decidable s.IntegerMaps :=
  inferInstanceAs (Decidable (∀ u ∈ s.nodes, u.IntegerMap))

theorem IntegerMaps.of_subset {s t : Source} (h : s.IntegerMaps) (hnodes : t.nodes ⊆ s.nodes) :
    t.IntegerMaps := fun u hmem => h u (hnodes hmem)

/-- A map of integers that passes the check of its entries lists the sources that they refer to. -/
theorem listed_of_integers {node : GeneratedText} {table : MappingTable}
    (hdecode : MappingTable.decode node.map.mappings = .ok table)
    (hintegers : ∀ m ∈ table, ∀ x ∈ m.fields.toList, x.isInteger = true)
    (hcheck : checkEntries node.name node.map.sources.length node.map.names.length table = .ok ()) :
    node.Listed table := by
  intro m hm _ o ho
  obtain ⟨hsource, -⟩ := checkEntries_eq_ok_iff.mp hcheck m hm o ho
  obtain ⟨index, hindex⟩ : ∃ n : Nat, o.source = (n : Number) :=
    (MappingTable.natural_of_integers hdecode hintegers m hm).exists_field (k := .source)
      (by simp [Mapping.fields, Option.mem_def.mp ho, Fields.get?])
  rw [hindex, Number.natCast_le] at hsource
  exact ⟨index, Nat.lt_of_not_le hsource, hindex⟩

/-- What is found for the sources of the map of a source, if it is a generated text, are sources. -/
def FindsSources : Source → Prop
  | generated _ node inputs => ∀ u ∈ node.entered inputs, u.isSome = true
  | _ => True

instance : (s : Source) → Decidable s.FindsSources
  | generated _ node inputs =>
    inferInstanceAs (Decidable (∀ u ∈ node.entered inputs, u.isSome = true))
  | plain _ => inferInstanceAs (Decidable True)
  | file _ _ => inferInstanceAs (Decidable True)
  | joined _ _ => inferInstanceAs (Decidable True)
  | edited _ _ _ => inferInstanceAs (Decidable True)
  | kept _ _ => inferInstanceAs (Decidable True)

/-- A constructed source with maps of integers is resolvable if nothing but sources is found for the
sources of its maps: every decoded index is that of a listed source. -/
theorem resolvable_of_integerMaps {s : Source} (hs : s.Constructed) (hmaps : s.IntegerMaps)
    (hfinds : ∀ u ∈ s.nodes, u.FindsSources) : s.Resolvable := by
  induction hs with
  | plain t => exact .plain t
  | file t name => exact .file t name
  | @generated id node inputs table hdecode hcheck hinputs ih =>
    have hintegers := hmaps _ (self_mem_nodes _) table (by rw [hdecode]; rfl)
    refine .generated hdecode (listed_of_integers hdecode hintegers hcheck) (fun hnone => ?_)
      fun u hu => ?_
    · have hsome : (none : Option Source).isSome = true := hfinds _ (self_mem_nodes _) none hnone
      cases hsome
    · obtain ⟨input, hmem, rfl⟩ := exists_of_mem_entered hu
      have hsub : input.2.nodes ⊆ (generated id node inputs).nodes := nodes_subset_of_input hmem
      exact ih input hmem (hmaps.of_subset hsub) fun u hu => hfinds u (hsub hu)
  | @joined id children hchildren ih =>
    refine .joined fun t ht => ?_
    have hsub : t.nodes ⊆ (joined id children).nodes := nodes_subset_of_child ht
    exact ih t ht (hmaps.of_subset hsub) fun u hu => hfinds u (hsub hu)
  | @edited id base _ edits hbase hcheck ih =>
    have hsub := nodes_subset_of_edited id base edits
    exact .edited (ih (hmaps.of_subset hsub) fun u hu => hfinds u (hsub hu))
  | @kept id child hchild ih =>
    have hsub := nodes_subset_of_kept id child
    exact .kept (ih (hmaps.of_subset hsub) fun u hu => hfinds u (hsub hu))

/-! ## Composing that fails -/

/-- A source is refused because a chain of source maps is too long, or because something is found for a
source of a map that is no source. -/
def RefusedWith (s : Source) (e : ComposeError) : Prop :=
  (∃ name reached, e = .tooDeep name reached) ∨ e = .notSource ∧ ∃ u ∈ s.nodes, ¬ u.FindsSources

theorem RefusedWith.of_subset {s t : Source} {e : ComposeError} (h : t.RefusedWith e)
    (hnodes : t.nodes ⊆ s.nodes) : s.RefusedWith e := by
  rcases h with htooDeep | ⟨he, u, hu, hfinds⟩
  · exact Or.inl htooDeep
  · exact Or.inr ⟨he, u, hnodes hu, hfinds⟩

/-- If the results of further sources fail, so does reaching what is found for a source of the map. -/
theorem exists_enter_of_inputResults {limit : Number} {depth : Nat} {node : GeneratedText}
    {inputs : List (Text × Source)} {e : ComposeError}
    (h : inputResults limit depth node inputs = .error e) :
    ∃ u ∈ node.entered inputs, enter limit depth node u = .error e := by
  have hmap := inputResults_map limit depth node inputs
  rw [h] at hmap
  exact exists_mem_of_mapM_eq_error hmap.symm

/-- A generated text is refused as what is found for a source of its map. -/
theorem refused_of_enter {limit : Number} {depth : Nat} {id : NodeId} {node : GeneratedText}
    {inputs : List (Text × Source)} {u : Option Source} {e : ComposeError}
    (hmem : u ∈ node.entered inputs)
    (hinputs : ∀ input ∈ inputs, compositionAt limit (depth + 1) input.2 = .error e →
      input.2.RefusedWith e)
    (h : enter limit depth node u = .error e) : (generated id node inputs).RefusedWith e := by
  unfold enter at h
  split at h
  · exact Or.inl ⟨_, _, (Except.error.inj h).symm⟩
  · cases u with
    | none =>
      refine Or.inr ⟨(Except.error.inj h).symm, _, self_mem_nodes _, fun hfinds => ?_⟩
      have hsome : (none : Option Source).isSome = true := hfinds none hmem
      cases hsome
    | some s =>
      obtain ⟨input, hinput, rfl⟩ := exists_of_mem_entered hmem
      exact (hinputs input hinput h).of_subset (nodes_subset_of_input hinput)

/-- **A constructed source with maps of integers is composed**, unless a chain of source maps is too long
or something is found for a source of a map that is no source. -/
theorem refused_of_compositionAt {limit : Number} {depth : Nat} {s : Source} {e : ComposeError}
    (hs : s.Constructed) (hmaps : s.IntegerMaps) (h : compositionAt limit depth s = .error e) :
    s.RefusedWith e := by
  induction hs generalizing depth with
  | plain t =>
    rw [compositionAt_plain] at h
    cases h
  | file t name =>
    rw [compositionAt_file] at h
    cases h
  | @generated id node inputs table hdecode hcheck hinputs ih =>
    have hintegers := hmaps _ (self_mem_nodes _) table (by rw [hdecode]; rfl)
    rw [compositionAt_generated_eq hdecode] at h
    cases hresults : inputResults limit depth node inputs with
    | ok results =>
      -- the map lists what its entries refer to, so nothing fails any more
      rw [hresults] at h
      rcases generate_cases_of_inputResults hinputs hresults table with ⟨-, c, hc⟩ | ⟨hlisted, -⟩
      · have herror : ((Composition.generate node results table).2.mapError .resolve) = .error e := h
        rw [hc] at herror
        cases herror
      · exact absurd (listed_of_integers hdecode hintegers hcheck) hlisted
    | error e' =>
      rw [hresults] at h
      obtain rfl : e' = e := Except.error.inj h
      obtain ⟨u, hmem, hu⟩ := exists_enter_of_inputResults hresults
      refine refused_of_enter hmem (fun input hinput herror => ?_) hu
      have hsub : input.2.nodes ⊆ (generated id node inputs).nodes := nodes_subset_of_input hinput
      exact ih input hinput (hmaps.of_subset hsub) herror
  | @joined id children hchildren ih =>
    rw [compositionAt, compositionsAt_eq_mapM] at h
    cases hresults : children.mapM (compositionAt limit depth) with
    | ok cs =>
      rw [hresults] at h
      cases h
    | error e' =>
      rw [hresults] at h
      obtain rfl : e' = e := Except.error.inj h
      obtain ⟨s, hmem, hs⟩ := exists_mem_of_mapM_eq_error hresults
      have hsub : s.nodes ⊆ (joined id children).nodes := nodes_subset_of_child hmem
      exact (ih s hmem (hmaps.of_subset hsub) hs).of_subset hsub
  | @edited id base _ edits hbase hcheck ih =>
    have hsub := nodes_subset_of_edited id base edits
    rw [compositionAt] at h
    cases hresult : compositionAt limit depth base with
    | ok c =>
      rw [hresult] at h
      cases h
    | error e' =>
      rw [hresult] at h
      obtain rfl : e' = e := Except.error.inj h
      exact (ih (hmaps.of_subset hsub) hresult).of_subset hsub
  | @kept id child hchild ih =>
    have hsub := nodes_subset_of_kept id child
    rw [compositionAt_kept] at h
    exact (ih (hmaps.of_subset hsub) h).of_subset hsub

/-! ## Regular outcomes -/

/-- A regular result with the text of a source, or the reason why it is refused. -/
def RegularOutcome (s : Source) : Except ComposeError Composition → Prop
  | .ok c => c.text = s.text ∧ c.Regular
  | .error e => s.RefusedWith e

/-- **A constructed source with maps of integers is composed to a regular result**, or refused. -/
theorem regularOutcome_compositionAt {s : Source} (hs : s.Constructed) (hmaps : s.IntegerMaps)
    (limit : Number) (depth : Nat) : s.RegularOutcome (compositionAt limit depth s) := by
  cases h : compositionAt limit depth s with
  | ok c =>
    obtain ⟨hproper, htext⟩ := compositionAt_proper hs h
    exact ⟨htext, Composition.regular_of_tidy hproper (compositionAt_tidy h)⟩
  | error e => exact refused_of_compositionAt hs hmaps h

end Source

end Provenance
