/-
# Sources made from their own maps

The text of a source with the map of that source is a source again.  Its construction is accepted, and
it has the same map, unless the map lists a source with the name of a member that every table of further
sources inherits.

The main facts:

* `compositionAt_within` : integers up to a bound in its result are naturals up to it;
* `fedBack_constructed`, `compositionAt_fedBack` : the text of a source with its map is constructed, and
  is composed to a result with the same map;
* `compositionAt_fedBack_of_listsMember` : why it may be refused.
-/
import Provenance.Proofs.Composition.Feedback
import Provenance.Proofs.Tree.Regular

namespace Provenance

/-- Entries that refer to what a map lists pass its check. -/
theorem checkEntries_of_listed {name : Text} {sources names : Nat} {table : MappingTable}
    (h : ∀ m ∈ table, ∀ o ∈ m.origin, o.Listed sources names) :
    checkEntries name sources names table = .ok () := by
  refine checkEntries_eq_ok_iff.mpr fun m hm o ho => ?_
  obtain ⟨⟨n, hn, hsource⟩, hname⟩ := h m hm o ho
  refine ⟨fun hle => ?_, fun i hi hle => ?_⟩
  · rw [hsource, Number.natCast_le] at hle
    omega
  · obtain ⟨k, hk, rfl⟩ := hname i hi
    rw [Number.natCast_le] at hle
    omega

/-- A map lists a source with the name of a member that every table of further sources inherits. -/
def SourceMap.ListsMember (m : SourceMap) : Prop :=
  ∃ source ∈ m.sources, source ∈ Inputs.members

instance (m : SourceMap) : Decidable m.ListsMember :=
  inferInstanceAs (Decidable (∃ source ∈ m.sources, source ∈ Inputs.members))

namespace Source

/-! ## Numbers of results -/

/-- Integers up to a bound in the result of a constructed source are naturals up to it. -/
theorem compositionAt_within {limit : Number} {depth : Nat} {s : Source} {c : Composition}
    (hs : s.Constructed) (h : compositionAt limit depth s = .ok c) {bound : Nat}
    (hnumbers : ∀ m ∈ c.mappings, m.IntegersUpTo bound) : ∀ m ∈ c.mappings, m.Within bound :=
  fun m hm => Composition.within_of_integers (compositionAt_proper hs h).1
    (compositionAt_counted hs h) hm (hnumbers m hm)

/-! ## Maps that are fed back -/

/-- The text of a source with a map. -/
def fedBack (s : Source) (id : NodeId) (name : Text) (m : SourceMap) : Source :=
  .generated id { text := s.text, name := name, map := m } []

/-- Without further sources nothing is found for a source of a map but a member that every table
inherits. -/
theorem keys_nil {node : GeneratedText} (hnode : node.inherits = false)
    (hroot : node.map.sourceRoot = none) :
    node.keys [] = node.map.sources.map fun source =>
      if source ∈ Inputs.members then some source else none := by
  have hkey : ∀ source, node.key? ([] : List (Text × Source)) source source =
      if source ∈ Inputs.members then some source else none := by
    intro source
    by_cases hmember : source ∈ Inputs.members <;>
      simp [GeneratedText.key?, GeneratedText.found?, GeneratedText.member?, hnode, hmember]
  have hqualified : node.map.qualifiedSources = node.map.sources := by
    rw [SourceMap.qualifiedSources, hroot]
  have hzip : node.map.sources.zip node.map.sources = node.map.sources.map fun s => (s, s) := by
    rw [List.map_prod_right_eq_zip (f := fun s => s), List.map_id']
  rw [GeneratedText.keys, hqualified, hzip, List.map_map]
  exact List.map_congr_left fun source _ => hkey source

/-- Without further sources there are no results for the sources of a map, if none of them is the name
of a member. -/
theorem inputResults_nil (limit : Number) (depth : Nat) {node : GeneratedText}
    (hnode : node.inherits = false) (hroot : node.map.sourceRoot = none)
    (hmember : ¬ node.map.ListsMember) :
    inputResults limit depth node [] = .ok (List.replicate node.map.sources.length none) := by
  have hnone : ∀ source ∈ node.map.sources, source ∉ Inputs.members := fun source hsource hin =>
    hmember ⟨source, hsource, hin⟩
  rw [inputResults, keys_nil hnode hroot]
  generalize node.map.sources = sources at hnone ⊢
  induction sources with
  | nil => rfl
  | cons source rest ih =>
    obtain ⟨hsource, hrest⟩ := List.forall_mem_cons.mp hnone
    rw [List.map_cons, if_neg hsource, List.mapM_cons, ih hrest, List.length_cons, List.replicate_succ]
    rfl

/-- What is found for the name of a member is no source. -/
theorem inputResults_nil_of_listsMember {limit : Number} {depth : Nat} {node : GeneratedText}
    (hlimit : ¬ limit < ((depth + 1 : Nat) : Number)) (hnode : node.inherits = false)
    (hroot : node.map.sourceRoot = none) (hmember : node.map.ListsMember) :
    inputResults limit depth node [] = .error .notSource := by
  obtain ⟨source, hsource, hin⟩ := hmember
  rw [inputResults, keys_nil hnode hroot]
  generalize node.map.sources = sources at hsource ⊢
  induction sources with
  | nil => cases hsource
  | cons first rest ih =>
    rw [List.map_cons, List.mapM_cons]
    by_cases hfirst : first ∈ Inputs.members
    · rw [if_pos hfirst]
      simp only [if_neg hlimit, inputCompositionAt]
      rfl
    · rw [if_neg hfirst]
      have hrest : source ∈ rest := by
        rcases List.mem_cons.mp hsource with rfl | hrest
        · exact absurd hin hfirst
        · exact hrest
      rw [ih hrest]
      rfl

variable {limit : Number} {depth : Nat} {s : Source} {c : Composition} {options : OutputOptions}
  {M : SourceMap}

/-- **The text of a source with the map of the source is constructed.** -/
theorem fedBack_constructed (hs : s.Constructed) (hc : compositionAt limit depth s = .ok c)
    (hnumbers : ∀ m ∈ c.mappings, m.IntegersUpTo 0x7FFFFFFF) (hM : c.toMap options = .ok (some M))
    (id : NodeId) (name : Text) : (s.fedBack id name M).Constructed :=
  .generated (Composition.decode_toMap (compositionAt_proper hs hc).1
    (compositionAt_within hs hc hnumbers) hM) (checkEntries_of_listed (Composition.listed_of_toMap hM))
    (by simp)

/-- **The text of a source with the map of the source is composed to a result with the same map**, if no
source of the map has the name of a member. -/
theorem compositionAt_fedBack (hs : s.Constructed) (hc : compositionAt limit depth s = .ok c)
    (hnumbers : ∀ m ∈ c.mappings, m.IntegersUpTo 0x7FFFFFFF) (hroot : options.sourceRoot = none)
    (hM : c.toMap options = .ok (some M)) (hmember : ¬ M.ListsMember) (limit' : Number) (depth' : Nat)
    (id : NodeId) (name : Text) :
    ∃ d, compositionAt limit' depth' (s.fedBack id name M) = .ok d ∧
      d.toMap options = .ok (some M) := by
  obtain ⟨hproper, htext⟩ := compositionAt_proper hs hc
  refine ⟨_, compositionAt_generated.mpr ⟨_, _, inputResults_nil limit' depth' rfl
    ((Composition.sourceRoot_of_toMap hM).trans hroot) hmember,
    Composition.decode_toMap hproper (compositionAt_within hs hc hnumbers) hM, ?_⟩,
    Composition.toMap_traced hM c.text⟩
  rw [← htext, Composition.generate_fedBack hproper (compositionAt_tidy hc) hroot hM name]

/-- **The text of a source with the map of the source is refused** if a source of the map has the name
of a member. -/
theorem compositionAt_fedBack_of_listsMember (hroot : options.sourceRoot = none)
    (hM : c.toMap options = .ok (some M)) (hmember : M.ListsMember) {limit' : Number} {depth' : Nat}
    (hlimit : ¬ limit' < ((depth' + 1 : Nat) : Number)) (id : NodeId) (name : Text) :
    compositionAt limit' depth' (s.fedBack id name M) = .error .notSource := by
  have hresults : inputResults limit' depth' { text := s.text, name := name, map := M } [] =
      .error .notSource :=
    inputResults_nil_of_listsMember hlimit rfl ((Composition.sourceRoot_of_toMap hM).trans hroot) hmember
  rw [fedBack, compositionAt]
  exact congrArg (· >>= _) hresults

end Source

end Provenance
