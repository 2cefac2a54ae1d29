/-
# Regular results

What every way of composing restores: the entries of a result stand inside its text one after the
other and refer to what its tables hold, no table holds a text twice, and a range is ended only where
there is one.

The main facts:

* `join_tidy`, `edit_tidy`, `generate_tidy` : each way of composing gives tables without repetitions
  and a closed table of mappings;
* `regular_of_tidy` : a proper and tidy result is regular;
* `generate_cases` : tracing a map through proper results succeeds if and only if the map lists what
  its entries refer to.
-/
import Provenance.Proofs.Composition.Edit
import Provenance.Proofs.Composition.File
import Provenance.Proofs.Composition.Generate
import Provenance.Proofs.Composition.Join
import Provenance.Proofs.Mapping.Renumber
import Provenance.Proofs.Mapping.Stable

namespace Provenance

/-! ## Tidy results -/

/-- No table of a result holds a text twice, and in its table of mappings a range is ended only where
there is one. -/
structure Composition.Tidy (c : Composition) : Prop where
  sources : c.sources.names.texts.Nodup
  names : c.names.texts.Nodup
  closed : c.mappings.Closed

namespace GeneratedText

variable {node : GeneratedText} {resolvers : List Resolver} {nameIndices : List Nat}
  {tables tables' : Tables}

theorem nodup_resolversFrom (node : GeneratedText) (index : Nat) {sources : ContentTable}
    (h : sources.names.texts.Nodup) (entries : List (Text × Option Composition)) :
    (node.resolversFrom index sources entries).2.names.texts.Nodup := by
  induction entries generalizing index sources with
  | nil => exact h
  | cons entry rest ih =>
    obtain ⟨source, _ | result⟩ := entry
    · exact ih (index + 1) (ContentTable.nodup_intern h source _)
    · exact ih (index + 1) h

/-- No table of a result that is put together holds a text twice. -/
structure Distinct (tables : Tables) : Prop where
  sources : tables.sources.names.texts.Nodup
  names : tables.names.texts.Nodup

/-- Resolving a location adds a source and a name at most. -/
theorem Resolves.distinct {o o' : Location} {gap : Option Gap} (h : Distinct tables)
    (hresolves : Resolves node resolvers nameIndices tables o o' tables' gap) : Distinct tables' := by
  cases hresolves with
  | known => exact h
  | gap => exact ⟨ContentTable.nodup_intern h.sources _ _, h.names⟩
  | moved => exact ⟨ContentTable.nodup_intern h.sources _ _, h.names⟩
  | renamed =>
    exact ⟨ContentTable.nodup_intern h.sources _ _, TextTable.nodup_intern h.names _⟩

theorem ResolvesAll.distinct {entries entries' : MappingTable}
    (hresolves : ResolvesAll node resolvers nameIndices tables entries entries' tables')
    (h : Distinct tables) : Distinct tables' := by
  induction hresolves with
  | nil => exact h
  | still _ _ ih => exact ih h
  | traced _ hlocation _ ih => exact ih (hlocation.distinct h)

end GeneratedText

namespace Composition

variable {b c : Composition}

theorem plain_tidy (t : Text) : (plain t).Tidy :=
  ⟨List.nodup_nil, List.nodup_nil, MappingTable.closed_nil⟩

/-- Every entry of a file has an origin. -/
theorem file_tidy (t name : Text) : (file t name).Tidy := by
  refine ⟨ContentTable.nodup_internAll ContentTable.nodup_empty _, List.nodup_nil,
    MappingTable.closed_of_forall_isSome fun m hm => ?_⟩
  rw [MappingTable.origin_of_mem_identity hm]
  rfl

theorem nodup_joinFrom (joint : Joint) (hsources : joint.sources.names.texts.Nodup)
    (hnames : joint.names.texts.Nodup) (cs : List Composition) :
    (joinFrom joint cs).2.1.names.texts.Nodup ∧ (joinFrom joint cs).2.2.texts.Nodup := by
  induction cs generalizing joint with
  | nil => exact ⟨hsources, hnames⟩
  | cons c rest ih =>
    exact ih _ (ContentTable.nodup_internAll hsources _) (TextTable.nodup_internAll hnames _)

/-- Joining merges tables, whatever the parts are. -/
theorem join_tidy (cs : List Composition) : (join cs).Tidy := by
  obtain ⟨hsources, hnames⟩ := nodup_joinFrom {} ContentTable.nodup_empty List.nodup_nil cs
  exact ⟨hsources, hnames, MappingTable.normalForm_closed _⟩

theorem nodup_editEntries (b : Composition) (edited : Text) {names : TextTable} (gain : Int)
    (h : names.texts.Nodup) (edits : List Edit) :
    (editEntries b edited gain names edits).2.texts.Nodup := by
  induction edits generalizing gain names with
  | nil => exact h
  | cons e rest ih =>
    rw [editEntries_cons]
    refine ih _ ?_
    unfold contentEntries nameContent
    split
    · exact h
    · cases e.name with
      | none => exact h
      | some name =>
        cases b.traceOffset? e.start with
        | none => exact h
        | some o => exact TextTable.nodup_intern h name

/-- Editing adds names only. -/
theorem edit_tidy (h : b.Tidy) (edits : List Edit) : (b.edit edits).Tidy :=
  ⟨h.sources, nodup_editEntries b _ 0 h.names edits, MappingTable.normalForm_closed _⟩

/-- Tracing a map starts from empty tables. -/
theorem generate_tidy {node : GeneratedText} {results : List (Option Composition)}
    {table : MappingTable} (h : (generate node results table).2 = .ok c) : c.Tidy := by
  obtain ⟨entries, -, hmappings, hresolves⟩ := resolvesAll_of_generate h
  have hdistinct := hresolves.distinct ⟨node.nodup_resolversFrom 0 ContentTable.nodup_empty _,
    TextTable.nodup_internAll List.nodup_nil _⟩
  refine ⟨hdistinct.sources, hdistinct.names, ?_⟩
  rw [hmappings]
  exact MappingTable.normalForm_closed _

/-! ## Regular results -/

/-- The entries of a result stand one after the other, each inside a line of the text; they refer to
sources and names of the tables, which hold no text twice; and every entry without an origin directly
follows, on its own line, one with an origin. -/
structure Regular (c : Composition) : Prop where
  increasing : c.mappings.Increasing
  inside : ∀ m ∈ c.mappings, ∃ line column start : Nat, m.line = (line : Number) ∧
    m.column = (column : Number) ∧ c.text.lineOffsets[line]? = some start ∧
    start + column ≤ c.text.lineEnd line
  known : ∀ m ∈ c.mappings, ∀ o ∈ m.origin, c.sources.names.has o.source = true ∧
    ∀ n ∈ o.name, c.names.has n = true
  sources : c.sources.names.texts.Nodup
  names : c.names.texts.Nodup
  closed : c.mappings.Closed

/-- An index with a text is one of the table. -/
theorem has_of_isSome_get? {t : TextTable} {index : Number} (h : (t.get? index).isSome) :
    t.has index = true := by
  obtain ⟨s, hs⟩ := Option.isSome_iff_exists.mp h
  obtain ⟨i, hi, hs⟩ := Option.bind_eq_some_iff.mp hs
  obtain ⟨hlt, -⟩ := List.getElem?_eq_some_iff.mp hs
  rw [TextTable.has, hi]
  exact decide_eq_true hlt

/-- **A proper and tidy result is regular.** -/
theorem regular_of_tidy (hproper : c.Proper) (htidy : c.Tidy) : c.Regular where
  increasing := hproper.increasing
  inside m hm := by
    obtain ⟨offset, hle, heq⟩ := hproper.inText m hm
    obtain ⟨start, hstart, hsum, hend⟩ := Text.exists_lineStart hle
    refine ⟨_, _, start, ?_, ?_, hstart, Nat.le_trans (Nat.le_of_eq hsum) hend⟩
    · exact congrArg Mapping.line heq
    · exact congrArg Mapping.column heq
  known m hm o ho := by
    have hknown := hproper.known m hm o ho
    exact ⟨has_of_isSome_get? hknown.source, fun n hn => has_of_isSome_get? (hknown.name n hn)⟩
  sources := htidy.sources
  names := htidy.names
  closed := htidy.closed

/-- What a position of a proper result is mapped to refers to sources and names of the result. -/
theorem Proper.known_of_trace? (h : c.Proper) {line column : Number} {o : Location}
    (ho : c.mappings.trace? line column = some o) : o.KnownIn c.sources.names c.names := by
  obtain ⟨m, hm, own, hown, distance, rfl⟩ := MappingTable.exists_of_trace? ho
  exact (h.known m hm own hown).advance distance

end Composition

/-! ## Tracing that succeeds -/

theorem TextTable.get_eq_ok_of_isSome {t : TextTable} {index : Number} (h : (t.get? index).isSome) :
    ∃ s, t.get index = .ok s := by
  obtain ⟨s, hs⟩ := Option.isSome_iff_exists.mp h
  exact ⟨s, get_eq_ok_iff.mpr hs⟩

namespace GeneratedText

variable {node : GeneratedText} {results : List (Option Composition)} {resolvers : List Resolver}
  {nameIndices : List Nat} {tables : Tables}

/-- A location of a listed source resolves, through proper results. -/
theorem exists_resolveLocation (h : Ready node results resolvers nameIndices tables)
    (hresults : ∀ c, some c ∈ results → c.Proper) {o : Location} {index : Nat}
    (hsource : o.source = (index : Number))
    (hindex : index < (node.map.qualifiedSources.zip results).length) :
    ∃ o' tables' gap, node.resolveLocation resolvers nameIndices tables o = .ok (o', tables', gap) := by
  unfold resolveLocation
  simp only [hsource, Number.toNat?_natCast]
  rcases getElem?_of_forall₂ h.resolvers index with ⟨hnone, -⟩ | ⟨⟨source, result⟩, r, hentry, hr, hstands⟩
  · rw [List.getElem?_eq_none_iff] at hnone
    omega
  · simp only [hr]
    cases r with
    | known i => exact ⟨_, _, _, rfl⟩
    | traced name result' =>
      -- the result that stands for the source is one of those given, so it knows what it refers to
      obtain ⟨rfl, rfl⟩ : source = name ∧ result = some result' := Prod.mk.inj hstands
      have hmem := List.mem_of_getElem? (List.getElem?_zip_eq_some.mp hentry).2
      simp only
      cases htrace : result'.mappings.trace? o.line o.column with
      | none => exact ⟨_, _, _, rfl⟩
      | some t =>
        have hknown := (hresults _ hmem).known_of_trace? htrace
        obtain ⟨s, hs⟩ := TextTable.get_eq_ok_of_isSome hknown.source
        simp only [hs]
        cases hn : t.name with
        | none => exact ⟨_, _, _, rfl⟩
        | some n =>
          obtain ⟨text, htext⟩ := TextTable.get_eq_ok_of_isSome (hknown.name n hn)
          simp only [htext]
          exact ⟨_, _, _, rfl⟩

/-- A location of no listed source does not resolve. -/
theorem resolveLocation_of_not_listed (h : Ready node results resolvers nameIndices tables)
    {o : Location} (hsource : ∀ index < (node.map.qualifiedSources.zip results).length,
      o.source ≠ ((index : Nat) : Number)) :
    node.resolveLocation resolvers nameIndices tables o = .error .noSource := by
  unfold resolveLocation
  cases hindex : o.source.toNat? with
  | none => rfl
  | some index =>
    have hle : resolvers.length ≤ index := by
      rw [← h.resolvers.length_eq]
      by_contra hlt
      exact hsource index (Nat.lt_of_not_le hlt) (Number.eq_natCast_of_toNat? hindex)
    simp only [List.getElem?_eq_none hle]

/-- Entries of listed sources resolve one after the other. -/
theorem exists_resolveFrom (h : Ready node results resolvers nameIndices tables)
    (hresults : ∀ c, some c ∈ results → c.Proper) {entries : MappingTable}
    (hentries : ∀ m ∈ entries, ∀ o ∈ m.origin,
      ∃ index < (node.map.qualifiedSources.zip results).length, o.source = ((index : Nat) : Number)) :
    ∃ resolved, (node.resolveFrom resolvers nameIndices tables entries).2 = .ok resolved := by
  induction entries generalizing tables with
  | nil => exact ⟨_, rfl⟩
  | cons m rest ih =>
    obtain ⟨hm, hrest⟩ := List.forall_mem_cons.mp hentries
    unfold resolveFrom
    cases ho : m.origin with
    | none =>
      obtain ⟨resolved, hresolved⟩ := ih h hrest
      exact ⟨_, map_eq_ok_iff.mpr ⟨resolved, hresolved, rfl⟩⟩
    | some o =>
      obtain ⟨index, hlt, hsource⟩ := hm o ho
      obtain ⟨o', tables', gap, hlocation⟩ := exists_resolveLocation h hresults hsource hlt
      obtain ⟨hgrown, -⟩ := (resolves_of_resolveLocation hlocation).spec h
      obtain ⟨resolved, hresolved⟩ := ih (h.of_grown hgrown) hrest
      simp only [hlocation]
      exact ⟨_, map_eq_ok_iff.mpr ⟨resolved, hresolved, rfl⟩⟩

/-- Entries do not resolve if one of them is of no listed source. -/
theorem resolveFrom_of_not_listed (h : Ready node results resolvers nameIndices tables)
    (hresults : ∀ c, some c ∈ results → c.Proper) {entries : MappingTable}
    (hentry : ¬ ∀ m ∈ entries, ∀ o ∈ m.origin,
      ∃ index < (node.map.qualifiedSources.zip results).length, o.source = ((index : Nat) : Number)) :
    (node.resolveFrom resolvers nameIndices tables entries).2 = .error .noSource := by
  induction entries generalizing tables with
  | nil => exact absurd (by simp) hentry
  | cons m rest ih =>
    rw [List.forall_mem_cons, not_and_or] at hentry
    unfold resolveFrom
    cases ho : m.origin with
    | none =>
      have hrest := hentry.resolve_left fun hm => hm (by simp [ho])
      exact map_eq_error_iff.mpr (ih h hrest)
    | some o =>
      by_cases hlisted : ∃ index < (node.map.qualifiedSources.zip results).length,
          o.source = ((index : Nat) : Number)
      · have hrest := hentry.resolve_left fun hm => hm (by simpa [ho] using hlisted)
        obtain ⟨index, hlt, hsource⟩ := hlisted
        obtain ⟨o', tables', gap, hlocation⟩ := exists_resolveLocation h hresults hsource hlt
        obtain ⟨hgrown, -⟩ := (resolves_of_resolveLocation hlocation).spec h
        simp only [hlocation]
        exact map_eq_error_iff.mpr (ih (h.of_grown hgrown) hrest)
      · have hlocation := resolveLocation_of_not_listed h (o := o)
          fun index hlt heq => hlisted ⟨index, hlt, heq⟩
        simp only [hlocation]

/-- The map lists the sources that the entries inside the text refer to. -/
def Listed (node : GeneratedText) (table : MappingTable) : Prop :=
  ∀ m ∈ table, isInside node.text m = true → ∀ o ∈ m.origin,
    ∃ index < node.map.sources.length, o.source = ((index : Nat) : Number)

end GeneratedText

theorem SourceMap.length_qualifiedSources (m : SourceMap) :
    m.qualifiedSources.length = m.sources.length := by
  unfold qualifiedSources
  split
  · rfl
  · rfl
  · rw [List.length_map]

/-- **Tracing through proper results** succeeds if and only if the map lists the sources that its
entries refer to. -/
theorem Composition.generate_cases {node : GeneratedText} {results : List (Option Composition)}
    {table : MappingTable} (hresults : ∀ c, some c ∈ results → c.Proper)
    (hlength : results.length = node.map.sources.length) :
    (node.Listed table ∧ ∃ c, (generate node results table).2 = .ok c) ∨
      (¬ node.Listed table ∧ (generate node results table).2 = .error .noSource) := by
  have hready := GeneratedText.ready_start node results
  have hzip : (node.map.qualifiedSources.zip results).length = node.map.sources.length := by
    rw [List.length_zip, SourceMap.length_qualifiedSources, hlength, Nat.min_self]
  have hlisted : node.Listed table ↔ ∀ m ∈ table.filter (GeneratedText.isInside node.text),
      ∀ o ∈ m.origin, ∃ index < (node.map.qualifiedSources.zip results).length,
        o.source = ((index : Nat) : Number) := by
    simp only [GeneratedText.Listed, hzip, List.mem_filter, and_imp]
  by_cases h : node.Listed table
  · obtain ⟨resolved, hresolved⟩ :=
      GeneratedText.exists_resolveFrom hready hresults (hlisted.mp h)
    exact Or.inl ⟨h, _, map_eq_ok_iff.mpr ⟨resolved, hresolved, rfl⟩⟩
  · have herror := GeneratedText.resolveFrom_of_not_listed hready hresults (hlisted.not.mp h)
    exact Or.inr ⟨h, map_eq_error_iff.mpr herror⟩

end Provenance
