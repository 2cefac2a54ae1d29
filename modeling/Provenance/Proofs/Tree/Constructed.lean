/-
# Constructed sources

A source is constructed if every node passed the checks of its construction: maps decode and list the
sources and names that their entries refer to, and replacements are applicable to the text they are
made in.

The main facts:

* `compositionAt_proper` : the composed result of a constructed source is proper and has its text;
* `compositionAt_counted` : the lines and columns of its origins are counts.
-/
import Provenance.Proofs.Composition.Counted
import Provenance.Proofs.Tree.Composition
import Provenance.Tree.Check

namespace Provenance

namespace Source

/-- Every node of a source passed the checks of its construction. -/
inductive Constructed : Source → Prop where
  | plain (t : Text) : Constructed (.plain t)
  | file (t name : Text) : Constructed (.file t name)
  | generated {id : NodeId} {node : GeneratedText} {inputs : List (Text × Source)}
      {table : MappingTable} (hdecode : MappingTable.decode node.map.mappings = .ok table)
      (hcheck : checkEntries node.name node.map.sources.length node.map.names.length table = .ok ())
      (hinputs : ∀ input ∈ inputs, Constructed input.2) : Constructed (.generated id node inputs)
  | joined {id : NodeId} {children : List Source} (hchildren : ∀ s ∈ children, Constructed s) :
      Constructed (.joined id children)
  | edited {id : NodeId} {base : Source} {rs : List Replacement} {edits : List Edit}
      (hbase : Constructed base) (hcheck : checkReplacements (text base) rs = .ok edits) :
      Constructed (.edited id base edits)
  | kept {id : NodeId} {child : Source} (hchild : Constructed child) : Constructed (.kept id child)

/-! ## Proper results -/

/-- **The composed result of a constructed source is proper and has its text.** -/
theorem compositionAt_proper {limit : Number} {depth : Nat} {s : Source} {c : Composition}
    (hs : s.Constructed) (h : compositionAt limit depth s = .ok c) : c.Proper ∧ c.text = s.text := by
  refine ⟨?_, text_of_compositionAt h⟩
  induction hs generalizing c with
  | plain t =>
    rw [compositionAt] at h
    obtain rfl := Except.ok.inj h
    exact Composition.plain_proper t
  | file t name =>
    rw [compositionAt] at h
    obtain rfl := Except.ok.inj h
    exact Composition.file_proper t name
  | generated hdecode hcheck hinputs ih =>
    obtain ⟨results, table, -, htable, hc⟩ := compositionAt_generated.mp h
    exact Composition.generate_proper hc fun m hm =>
      (MappingTable.decode_reached htable m hm).imp_right Number.Reached.count
  | @joined id children hchildren ih =>
    obtain ⟨cs, hcs, rfl⟩ := compositionAt_joined.mp h
    apply Composition.join_proper
    intro c hc
    obtain ⟨s, hs, hsc⟩ := exists_mem_of_forall₂ (compositionsAt_eq_ok hcs) hc
    exact ih s hs hsc
  | edited hbase hcheck ih =>
    obtain ⟨b, hb, rfl⟩ := compositionAt_edited.mp h
    have horder := inOrder_of_checkReplacements hcheck
    rw [← text_of_compositionAt hb] at horder
    exact Composition.edit_proper (ih hb) horder
  | kept hchild ih =>
    rw [compositionAt] at h
    exact ih h

/-- **The lines and columns of the origins in a constructed source** are counts. -/
theorem compositionAt_counted {limit : Number} {depth : Nat} {s : Source} {c : Composition}
    (hs : s.Constructed) (h : compositionAt limit depth s = .ok c) : c.Counted := by
  induction hs generalizing depth c with
  | plain t =>
    rw [compositionAt] at h
    obtain rfl := Except.ok.inj h
    exact Composition.plain_counted t
  | file t name =>
    rw [compositionAt] at h
    obtain rfl := Except.ok.inj h
    exact Composition.file_counted t name
  | generated hdecode hcheck hinputs ih =>
    obtain ⟨results, table, hresults, htable, hc⟩ := compositionAt_generated.mp h
    refine Composition.generate_counted hc
      (fun m hm x hx =>
      ((MappingTable.reached_of_decode htable m hm).2 x hx).count) fun r hr => ?_
    obtain ⟨input, hmem, hcompose⟩ := exists_of_mem_inputResults hresults hr
    exact ⟨(compositionAt_proper (hinputs input hmem) hcompose).1, ih input hmem hcompose⟩
  | @joined id children hchildren ih =>
    obtain ⟨cs, hcs, rfl⟩ := compositionAt_joined.mp h
    have hcomposed : ∀ c ∈ cs, ∃ s ∈ children, compositionAt limit depth s = .ok c := fun c hc =>
      exists_mem_of_forall₂ (compositionsAt_eq_ok hcs) hc
    refine Composition.join_counted (fun c hc => ?_) fun c hc => ?_
    · obtain ⟨s, hs, hsc⟩ := hcomposed c hc
      exact (compositionAt_proper (hchildren s hs) hsc).1
    · obtain ⟨s, hs, hsc⟩ := hcomposed c hc
      exact ih s hs hsc
  | edited hbase hcheck ih =>
    obtain ⟨b, hb, rfl⟩ := compositionAt_edited.mp h
    have horder := inOrder_of_checkReplacements hcheck
    rw [← text_of_compositionAt hb] at horder
    exact Composition.edit_counted (compositionAt_proper hbase hb).1 (ih hb) horder
  | kept hchild ih =>
    rw [compositionAt] at h
    exact ih h

end Source

end Provenance
