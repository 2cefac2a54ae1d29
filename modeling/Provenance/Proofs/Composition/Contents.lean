/-
# Contents of traced maps

The sources of a result that a map is traced to are added in one order: those of the map that are not
generated, and then, entry by entry, what the location of the entry leads to.  Each comes with a content
or without one, and the first content that comes with a source is recorded.  The content of the source
that the map points to may be withheld; only a gap under its name then supplies one.

The main facts:

* `generate_sources` : the sources of a result, by what is supplied;
* `recorded_withheld` : the content that is recorded for a withheld source;
* `contentAt_of_toMap` : a source map has for a source the content that is recorded for it.
-/
import Provenance.Proofs.Composition.Output
import Provenance.Proofs.Composition.Regular
import Provenance.Proofs.Contents

namespace Provenance

namespace GeneratedText

variable {node : GeneratedText} {results : List (Option Composition)} {resolvers : List Resolver}
  {nameIndices : List Nat} {tables tables' : Tables}

/-! ## What is supplied -/

/-- The sources of the map that are not generated, with the contents known for them. -/
def localContents (node : GeneratedText) (index : Nat) :
    List (Text × Option Composition) → List (Text × Option Text)
  | [] => []
  | (source, none) :: rest =>
    (source, node.contentOf index source) :: node.localContents (index + 1) rest
  | (_, some _) :: rest => node.localContents (index + 1) rest

/-- The generated source that a location of the map is in, with its index and its result. -/
def through? (node : GeneratedText) (results : List (Option Composition)) (o : Location) :
    Option (Nat × Text × Composition) := do
  let index ← o.source.toNat?
  let (source, result) ← (node.map.qualifiedSources.zip results)[index]?
  result.map fun r => (index, source, r)

/-- The source that a location of the map leads to through a result, with the content that it comes
with. -/
def suppliedBy? (node : GeneratedText) (results : List (Option Composition)) (o : Location) :
    Option (Text × Option Text) := do
  let (index, source, r) ← node.through? results o
  match r.mappings.trace? o.line o.column with
  | none => some (source, (node.contentOf index source).or (some r.text))
  | some t => (r.sources.names.get? t.source).map fun s => (s, r.sources.content? t.source)

/-- The sources that entries of the map lead to, one after the other. -/
def supplied (node : GeneratedText) (results : List (Option Composition)) (entries : MappingTable) :
    List (Text × Option Text) :=
  entries.filterMap fun m => m.origin.bind (node.suppliedBy? results)

theorem supplied_cons (m : Mapping) (rest : MappingTable) :
    node.supplied results (m :: rest) =
      (m.origin.bind (node.suppliedBy? results)).toList ++ node.supplied results rest := by
  rw [supplied, List.filterMap_cons]
  cases m.origin.bind (node.suppliedBy? results) <;> rfl

theorem resolversFrom_sources (node : GeneratedText) (index : Nat) (sources : ContentTable)
    (entries : List (Text × Option Composition)) :
    (node.resolversFrom index sources entries).2 =
      (sources.internAll (node.localContents index entries)).2 := by
  induction entries generalizing index sources with
  | nil => rfl
  | cons entry rest ih =>
    obtain ⟨source, _ | result⟩ := entry
    · exact ih (index + 1) (sources.intern source (node.contentOf index source)).2
    · exact ih (index + 1) sources

/-- A source that is not generated is none that is traced through. -/
theorem Ready.through?_known (h : Ready node results resolvers nameIndices tables) {o : Location}
    {index i : Nat} (hindex : o.source.toNat? = some index)
    (hr : resolvers[index]? = some (.known i)) : node.through? results o = none := by
  obtain ⟨source, result, hentry, rfl, -⟩ := h.exists_entry hr
  simp [through?, hindex, hentry]

/-- A generated source is traced through with the result for it. -/
theorem Ready.through?_traced (h : Ready node results resolvers nameIndices tables) {o : Location}
    {index : Nat} {source : Text} {result : Composition} (hindex : o.source.toNat? = some index)
    (hr : resolvers[index]? = some (.traced source result)) :
    node.through? results o = some (index, source, result) := by
  obtain ⟨_, _, hentry, hstands⟩ := h.exists_entry hr
  obtain ⟨rfl, rfl⟩ := Prod.mk.inj hstands
  simp [through?, hindex, hentry]

/-- A location that resolves adds the source that it leads to. -/
theorem Resolves.sources (h : Ready node results resolvers nameIndices tables) {o o' : Location}
    {gap : Option Gap} (hresolves : Resolves node resolvers nameIndices tables o o' tables' gap) :
    tables'.sources = (tables.sources.internAll (node.suppliedBy? results o).toList).2 := by
  cases hresolves with
  | known hindex hr =>
    simp [suppliedBy?, h.through?_known hindex hr, ContentTable.internAll]
  | gap hindex hr htrace hcontent =>
    subst hcontent
    simp [suppliedBy?, h.through?_traced hindex hr, htrace, ContentTable.internAll]
  | moved hindex hr htrace hsource _ hcontent =>
    subst hcontent
    simp [suppliedBy?, h.through?_traced hindex hr, htrace, hsource, ContentTable.internAll]
  | renamed hindex hr htrace hsource _ _ hcontent =>
    subst hcontent
    simp [suppliedBy?, h.through?_traced hindex hr, htrace, hsource, ContentTable.internAll]

/-- Entries that resolve add the sources that they lead to. -/
theorem ResolvesAll.sources {entries entries' : MappingTable}
    (hresolves : ResolvesAll node resolvers nameIndices tables entries entries' tables')
    (h : Ready node results resolvers nameIndices tables) :
    tables'.sources = (tables.sources.internAll (node.supplied results entries)).2 := by
  induction hresolves with
  | nil => rfl
  | still ho _ ih =>
    rw [supplied_cons, ContentTable.internAll_append, ho]
    exact ih h
  | traced ho hlocation _ ih =>
    rw [supplied_cons, ContentTable.internAll_append, ho, Option.bind_some,
      ih (h.of_grown (hlocation.spec h).1), hlocation.sources h]

/-! ## Withheld contents -/

/-- The text that a gap under the name of the map's own source supplies. -/
def gapText? (node : GeneratedText) (results : List (Option Composition)) (m : Mapping) :
    Option Text := do
  let o ← m.origin
  let (_, source, r) ← node.through? results o
  if source = node.name ∧ r.mappings.trace? o.line o.column = none then some r.text else none

/-- What is withheld does not come with a source that is not generated. -/
theorem firstContent_localContents (hwithhold : node.withholdText = true) (index : Nat)
    (entries : List (Text × Option Composition)) :
    firstContent node.name (node.localContents index entries) = none := by
  induction entries generalizing index with
  | nil => rfl
  | cons entry rest ih =>
    obtain ⟨source, _ | result⟩ := entry
    · rw [localContents, firstContent_cons, ih, Option.or_none]
      by_cases hs : source = node.name
      · simp [contentOf, hs, hwithhold]
      · simp [hs]
    · exact ih (index + 1)

/-- What is withheld comes with an entry only through a gap, if no result that is traced through records
a content for it. -/
theorem firstContent_suppliedBy? (hwithhold : node.withholdText = true) {m : Mapping}
    (hresults : ∀ o ∈ m.origin, ∀ e ∈ node.through? results o,
      e.2.2.sources.names.texts.Nodup ∧ e.2.2.sources.recorded node.name = none) :
    ((m.origin.bind (node.suppliedBy? results)).bind fun e =>
      if e.1 = node.name then e.2 else none) = node.gapText? results m := by
  unfold gapText?
  cases ho : m.origin with
  | none => rfl
  | some o =>
    simp only [Option.bind_some, Option.bind_eq_bind, suppliedBy?]
    cases he : node.through? results o with
    | none => rfl
    | some e =>
      obtain ⟨index, source, r⟩ := e
      obtain ⟨hnodup, hrecorded⟩ := hresults o ho _ he
      simp only [Option.bind_some]
      cases htrace : r.mappings.trace? o.line o.column with
      | none =>
        by_cases hs : source = node.name
        · simp [contentOf, hs, hwithhold]
        · simp [hs]
      | some t =>
        cases hget : r.sources.names.get? t.source with
        | none => simp [hget]
        | some s =>
          by_cases hs : s = node.name
          · subst hs
            simp [hget, ContentTable.content?_eq_recorded hnodup hget, hrecorded]
          · simp [hget, hs]

/-- What is withheld comes with the first gap under its name. -/
theorem firstContent_supplied (hwithhold : node.withholdText = true) {entries : MappingTable}
    (hresults : ∀ m ∈ entries, ∀ o ∈ m.origin, ∀ e ∈ node.through? results o,
      e.2.2.sources.names.texts.Nodup ∧ e.2.2.sources.recorded node.name = none) :
    firstContent node.name (node.supplied results entries) =
      entries.findSome? (node.gapText? results) := by
  induction entries with
  | nil => rfl
  | cons m rest ih =>
    obtain ⟨hm, hrest⟩ := List.forall_mem_cons.mp hresults
    have hfirst : firstContent node.name (m.origin.bind (node.suppliedBy? results)).toList =
        node.gapText? results m := by
      rw [← firstContent_suppliedBy? hwithhold hm]
      cases m.origin.bind (node.suppliedBy? results) with
      | none => rfl
      | some e => exact (firstContent_cons node.name e []).trans Option.or_none
    rw [supplied_cons, firstContent_append, hfirst, ih hrest, List.findSome?_cons]
    cases node.gapText? results m <;> rfl

end GeneratedText

namespace Composition

open GeneratedText

variable {node : GeneratedText} {results : List (Option Composition)} {table : MappingTable}
  {c : Composition}

/-- **The sources of a result that a map is traced to**: those of the map that are not generated, and
then those that the entries inside the text lead to. -/
theorem generate_sources (h : (generate node results table).2 = .ok c) :
    c.sources = (ContentTable.internAll {}
      (node.localContents 0 (node.map.qualifiedSources.zip results) ++
        node.supplied results (table.filter (isInside node.text)))).2 := by
  obtain ⟨_, -, -, hresolves⟩ := resolvesAll_of_generate h
  rw [ContentTable.internAll_append, ← resolversFrom_sources]
  exact hresolves.sources (ready_start node results)

/-- **The content that is recorded for a withheld source** is the text of the first gap under its name,
if no result that is traced through records a content for it. -/
theorem recorded_withheld (h : (generate node results table).2 = .ok c)
    (hwithhold : node.withholdText = true)
    (hresults : ∀ m ∈ table, isInside node.text m = true → ∀ o ∈ m.origin,
      ∀ e ∈ node.through? results o,
        e.2.2.sources.names.texts.Nodup ∧ e.2.2.sources.recorded node.name = none) :
    c.sources.recorded node.name =
      (table.filter (isInside node.text)).findSome? (node.gapText? results) := by
  rw [generate_sources h, ContentTable.recorded_internAll ContentTable.nodup_empty,
    firstContent_append, firstContent_localContents hwithhold, Option.none_or,
    show ContentTable.recorded {} node.name = none from rfl, Option.none_or]
  refine firstContent_supplied hwithhold fun m hm => ?_
  obtain ⟨hmem, hinside⟩ := List.mem_filter.mp hm
  exact hresults m hmem hinside

/-- **A source map has for a source the content that is recorded for it.** -/
theorem contentAt_of_toMap (htidy : c.Tidy) {options : OutputOptions} {M : SourceMap}
    (hM : c.toMap options = .ok (some M)) {i : Nat} {s : Text} (hs : M.sources[i]? = some s) :
    M.contentAt i = c.sources.recorded s := by
  obtain ⟨-, hsources, hcontents, -, -, -, -⟩ := toMap_eq_some_iff.mp hM
  have hindex : (M.sources.map some)[i]? = some (some s) := by rw [List.getElem?_map, hs]; rfl
  rw [hsources, List.getElem?_map, Option.map_eq_some_iff] at hindex
  obtain ⟨index, hused, hget⟩ := hindex
  rw [← ContentTable.content?_eq_recorded htidy.sources hget]
  rw [SourceMap.contentAt, hcontents, outputContents]
  split
  · simp [hused]
  · rename_i hnone
    rw [Bool.not_eq_true, List.any_eq_false] at hnone
    have h := hnone _ (List.mem_map_of_mem (List.mem_of_getElem? hused))
    exact (Option.not_isSome_iff_eq_none.mp h).symm

end Composition

end Provenance
