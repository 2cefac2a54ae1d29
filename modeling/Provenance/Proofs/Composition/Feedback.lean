/-
# Maps that are fed back

The source map of a result is given back to the result's text, as a map without further sources, and the
text is composed again.  The sources and the names of the map differ from each other, so they keep the
numbers that they have in it; the entries stand in the text, so none is dropped; and a compact table is
left alone by each step that could change it.  The new result has the same source map.

The main facts:

* `resolversFrom_of_nodup` : sources that differ are numbered in their order;
* `generate_of_listed` : a map without further sources is traced to itself;
* `generate_fedBack` : the source map of a result is traced to a result with the same source map.
-/
import Provenance.Proofs.Composition.Output
import Provenance.Proofs.Composition.Regular

namespace Provenance

namespace GeneratedText

variable {node : GeneratedText} {tables : Tables} {sources names : Nat}

/-- Sources of a map that differ, and are not generated, are numbered in their order. -/
theorem resolversFrom_of_nodup (node : GeneratedText) (table : ContentTable) {ss : List Text}
    (h : (table.names.texts ++ ss).Nodup) :
    node.resolversFrom table.entries.length table (ss.map fun s => (s, none)) =
      ((List.range' table.entries.length ss.length).map .known,
        ⟨table.entries ++ (ss.zipIdx table.entries.length).map fun e =>
          (e.1, node.contentOf e.2 e.1)⟩) := by
  induction ss generalizing table with
  | nil => simp [resolversFrom]
  | cons s rest ih =>
    have hs : s ∉ table.names.texts := fun hmem =>
      (List.nodup_append.mp h).2.2 s hmem s List.mem_cons_self rfl
    have ih := ih ⟨table.entries ++ [(s, node.contentOf table.entries.length s)]⟩
      (by simpa [ContentTable.names] using h)
    simp only [List.length_append, List.length_singleton, List.append_assoc,
      List.singleton_append] at ih
    rw [List.map_cons, resolversFrom, ContentTable.intern_of_not_mem hs]
    simp only [ih, List.length_cons, List.range'_succ, List.map_cons, List.zipIdx_cons]

/-! ## Entries that stay as they are -/

/-- A location of listed sources that are not generated resolves to itself. -/
theorem resolveLocation_of_listed {o : Location} (h : o.Listed sources names) :
    node.resolveLocation ((List.range' 0 sources).map .known) (List.range' 0 names) tables o =
      .ok (o, tables, none) := by
  obtain ⟨source, line, column, name⟩ := o
  obtain ⟨⟨n, hn, rfl⟩, hname⟩ := h
  have hresolver : ((List.range' 0 sources).map Resolver.known)[n]? = some (.known n) := by
    rw [List.getElem?_map, List.getElem?_range' hn]
    simp
  have hindex : (name.bind fun n => n.toNat?.bind fun i => (List.range' 0 names)[i]?).map
      (fun n : Nat => (n : Number)) = name := by
    cases name with
    | none => rfl
    | some i =>
      obtain ⟨k, hk, rfl⟩ := hname i rfl
      simp [List.getElem?_range' hk]
  unfold resolveLocation
  simp only [Number.toNat?_natCast, hresolver, hindex]

/-- Entries of listed sources that are not generated resolve to themselves. -/
theorem resolveFrom_of_listed {entries : MappingTable}
    (h : ∀ m ∈ entries, ∀ o ∈ m.origin, o.Listed sources names) :
    node.resolveFrom ((List.range' 0 sources).map .known) (List.range' 0 names) tables entries =
      ([], .ok (entries, tables)) := by
  induction entries with
  | nil => rfl
  | cons m rest ih =>
    obtain ⟨hm, hrest⟩ := List.forall_mem_cons.mp h
    obtain ⟨line, column, origin⟩ := m
    rw [resolveFrom]
    cases origin with
    | none =>
      simp only [ih hrest]
      rfl
    | some o =>
      simp only [resolveLocation_of_listed (hm o rfl), ih hrest]
      rfl

/-- An entry that stands in a text is inside. -/
theorem isInside_of_inText {t : Text} {m : Mapping} (h : m.InText t) : isInside t m = true := by
  obtain ⟨start, hstart, hsum, hend⟩ := Text.exists_lineStart h.offsetIn_le
  refine isInside_of_le hstart (Nat.le_trans (Nat.le_of_eq hsum) hend) h.placed ?_
  rw [h.place_eq]
  exact Text.Position.covers_iff.mpr ⟨rfl, Nat.le_refl _⟩

end GeneratedText

/-- The result for a text with a map that has no further sources. -/
def SourceMap.traced (m : SourceMap) (t : Text) (table : MappingTable) : Composition where
  text := t
  mappings := table
  sources := ⟨m.sources.zipIdx.map fun e => (e.1, m.contentAt e.2)⟩
  names := ⟨m.names⟩
  chainLength := 0

/-- **A map without further sources is traced to itself**, if its sources differ and its names differ,
and its entries are those of a regular result. -/
theorem Composition.generate_of_listed {t name : Text} {m : SourceMap} {table : MappingTable}
    (hroot : m.sourceRoot = none) (hsources : m.sources.Nodup) (hnames : m.names.Nodup)
    (hinText : ∀ entry ∈ table, entry.InText t) (hincreasing : table.Increasing)
    (hclosed : table.Closed)
    (hlisted : ∀ entry ∈ table, ∀ o ∈ entry.origin, o.Listed m.sources.length m.names.length) :
    generate { text := t, name := name, map := m } (List.replicate m.sources.length none) table =
      ([], .ok (m.traced t table)) := by
  let node : GeneratedText := { text := t, name := name, map := m }
  have hcontents : ∀ (index : Nat) (s : Text), node.contentOf index s = m.contentAt index := by
    intro index s
    simp [GeneratedText.contentOf, node]
  have hentries : node.map.qualifiedSources.zip
      (List.replicate m.sources.length (none : Option Composition)) =
        m.sources.map fun s => (s, none) := by
    rw [SourceMap.qualifiedSources, show node.map.sourceRoot = none from hroot, ← List.map_const',
      ← List.map_prod_left_eq_zip]
  have hresolvers := node.resolversFrom_of_nodup {} hsources
  have hinside : table.filter (GeneratedText.isInside t) = table :=
    List.filter_eq_self.mpr fun entry hentry => GeneratedText.isInside_of_inText (hinText entry hentry)
  have hnormal : table.normalForm = table :=
    MappingTable.normalForm_eq_self (fun entry hentry => (hinText entry hentry).placed) hincreasing
      hclosed
  simp only [hcontents, List.length_nil, List.nil_append] at hresolvers
  unfold generate
  simp only [node] at hentries hresolvers
  simp only [hentries, hresolvers, TextTable.internAll_of_nodup (t := {}) hnames, hinside,
    GeneratedText.resolveFrom_of_listed hlisted, TextTable.size, List.length_nil]
  simp [Except.map, hnormal, SourceMap.traced]

/-! ## Tables that go into a source map -/

namespace MappingTable

variable {table : MappingTable} {source name : Number → Number}

/-- Entries with new indices stand where they stood. -/
theorem inText_renumber {t : Text} {m : Mapping} (h : m.InText t) : (m.renumber source name).InText t := by
  obtain ⟨offset, hle, hm⟩ := h
  refine ⟨offset, hle, ?_⟩
  conv_lhs => rw [hm]
  rfl

theorem increasing_map_renumber (h : table.Increasing) :
    Increasing (table.map (Mapping.renumber source name)) := List.pairwise_map.mpr h

theorem closed_map_renumber (h : table.Closed) :
    Closed (table.map (Mapping.renumber source name)) := by
  intro before m after heq hm
  obtain ⟨init, rest, rfl, rfl, hrest⟩ := List.map_eq_append_iff.mp heq
  obtain ⟨own, others, rfl, rfl, rfl⟩ := List.map_eq_cons_iff.mp hrest
  obtain ⟨b, hb, hline, hsome⟩ := h init own others rfl (Option.map_eq_none_iff.mp hm)
  refine ⟨b.renumber source name, ?_, hline, ?_⟩
  · rw [List.getLast?_map]
    exact Option.mem_map_of_mem _ hb
  · rw [Mapping.renumber, Option.isSome_map]
    exact hsome

/-- New indices do not change which entries start a line. -/
theorem linesAfter_map_renumber (line : Number) (table : MappingTable) :
    linesAfter line (table.map (Mapping.renumber source name)) =
      (linesAfter line table).map (Mapping.renumber source name) := by
  induction table generalizing line with
  | nil => rfl
  | cons m rest ih =>
    rw [List.map_cons, linesAfter, linesAfter]
    cases ho : m.origin with
    | none =>
      simp only [Mapping.renumber, ho, Option.map_none]
      exact ih line
    | some o =>
      simp only [Mapping.renumber, ho, Option.map_some]
      split
      · exact ih line
      · rw [List.map_cons]
        exact congrArg _ (ih m.line)

end MappingTable

/-- The start of the line that an entry is on is in the text, too. -/
theorem Mapping.inText_lineStart {t : Text} {m : Mapping} (h : m.InText t) (origin : Option Location) :
    (Mapping.mk m.line 0 origin).InText t := by
  obtain ⟨start, hstart, hsum, hend⟩ := Text.exists_lineStart h.offsetIn_le
  have hle : start + 0 ≤ t.lineEnd (t.positionOf (m.offsetIn t)).line := by omega
  refine ⟨start, Nat.le_trans hle (Text.lineEnd_le_length t _), ?_⟩
  rw [Composition.entryAt, show t.positionOf start = _ from Text.positionOf_of_le_lineEnd hstart hle,
    h.placed.line, h.place_eq]
  rfl

namespace Composition

variable {c : Composition} {options : OutputOptions} {M : SourceMap}

/-- The table that goes into a source map is as proper as the table of the result. -/
theorem outputTable_proper (h : c.Proper) (options : OutputOptions) :
    { c with mappings := c.outputTable options }.Proper := by
  unfold outputTable
  split
  · exact h
  · have hplaced := h.markedBy.placed
    refine ⟨fun m hm => ?_, (MappingTable.firstOfLines_increasing hplaced
      (h.increasing.sorted hplaced)).2, fun m hm o ho => ?_⟩
    · obtain ⟨own, hown, o, -, rfl⟩ := MappingTable.exists_of_mem_firstOfLines hm
      exact Mapping.inText_lineStart (h.inText own hown) _
    · obtain ⟨own, hown, old, hold, rfl⟩ := MappingTable.exists_of_mem_firstOfLines hm
      obtain rfl := Option.some.inj ho
      exact ⟨(h.known own hown old hold).source, by simp⟩

theorem outputTable_closed (h : c.Tidy) (options : OutputOptions) : (c.outputTable options).Closed := by
  unfold outputTable
  split
  · exact h.closed
  · exact MappingTable.firstOfLines_closed _

theorem outputTable_within {bound : Nat} (h : ∀ m ∈ c.mappings, m.Within bound)
    (options : OutputOptions) : ∀ m ∈ c.outputTable options, m.Within bound := by
  unfold outputTable
  split
  · exact h
  · intro m hm
    obtain ⟨own, hown, o, ho, rfl⟩ := MappingTable.exists_of_mem_firstOfLines hm
    obtain ⟨hsource, hline, -, -⟩ := (h own hown).origin o ho
    refine ⟨(h own hown).line, ⟨0, Nat.zero_le _, rfl⟩, fun o' ho' => ?_⟩
    obtain rfl := Option.some.inj ho'
    exact ⟨hsource, hline, ⟨0, Nat.zero_le _, rfl⟩, by simp⟩

/-- The table that went into a source map goes into one as it is. -/
theorem outputTable_traced (t : Text) (m : SourceMap) :
    (m.traced t (c.outputTable options).compact).outputTable options =
      (c.outputTable options).compact := by
  unfold outputTable
  split
  · rfl
  · rw [MappingTable.compact_eq_map]
    exact (MappingTable.linesAfter_map_renumber _ _).trans
      (congrArg _ (MappingTable.firstOfLines_firstOfLines c.mappings))

/-! ## Source maps that are fed back -/

/-- Different indices have different texts in a table without repetitions. -/
theorem nodup_of_map_some_eq {t : TextTable} (ht : t.texts.Nodup) {indices : List Number}
    {texts : List Text} (hindices : indices.Nodup) (h : texts.map some = indices.map t.get?) :
    texts.Nodup := by
  apply List.Nodup.of_map some
  rw [h]
  refine hindices.map_on fun i hi j hj hij => ?_
  obtain ⟨s, -, hs⟩ := List.mem_map.mp (h ▸ List.mem_map_of_mem hi : t.get? i ∈ texts.map some)
  obtain ⟨k, hk, hks⟩ := Option.bind_eq_some_iff.mp hs.symm
  obtain ⟨l, hl, hls⟩ := Option.bind_eq_some_iff.mp (hij.symm.trans hs.symm)
  obtain ⟨hlt, -⟩ := List.getElem?_eq_some_iff.mp hks
  obtain rfl := (List.getElem?_inj hlt ht).mp (hks.trans hls.symm)
  rw [Number.eq_natCast_of_toNat? hk, Number.eq_natCast_of_toNat? hl]

/-- What stands at the places of a list stands under its first numbers. -/
theorem map_firstNumbers {α β : Type} {xs : List α} {f : Number → β} {g : α → β}
    (h : ∀ i (hi : i < xs.length), f (i : Number) = g xs[i]) :
    (MappingTable.firstNumbers xs.length).map f = xs.map g := by
  apply List.ext_getElem
  · simp [MappingTable.firstNumbers]
  · intro i hi hi'
    simpa [MappingTable.firstNumbers] using h i (by simpa using hi')

/-- The contents of a map stay the contents. -/
theorem outputContents_traced {indices : List Number} (hcontents : M.contents = c.outputContents indices)
    (hlength : M.sources.length = indices.length) (t : Text) (table : MappingTable) :
    (M.traced t table).outputContents (MappingTable.firstNumbers M.sources.length) = M.contents := by
  have hmap : (MappingTable.firstNumbers M.sources.length).map
      (M.traced t table).sources.content? = M.sources.zipIdx.map fun e => M.contentAt e.2 := by
    rw [← List.length_zipIdx (l := M.sources) (i := 0)]
    refine map_firstNumbers fun i hi => ?_
    have hi' : i < M.sources.length := by simpa using hi
    simp [SourceMap.traced, ContentTable.content?, ContentTable.contents, hi']
  cases h : M.contents with
  | none =>
    refine outputContents_eq_none_iff.mpr fun i hi => ?_
    obtain ⟨e, -, he⟩ := List.mem_map.mp (hmap ▸ List.mem_map_of_mem hi :
      (M.traced t table).sources.content? i ∈ M.sources.zipIdx.map fun e => M.contentAt e.2)
    rw [← he, SourceMap.contentAt, h]
    rfl
  | some contents =>
    have hlist := eq_of_outputContents (hcontents.symm.trans h)
    have heach : (M.sources.zipIdx.map fun e => M.contentAt e.2) = contents := by
      apply List.ext_getElem
      · simp [hlist, hlength]
      · intro i hi hi'
        simp [SourceMap.contentAt, h, hi']
    rw [← h, hcontents, outputContents, outputContents, hmap, heach, hlist]

/-- A map lists one source and one name for each index in use. -/
theorem length_of_toMap (h : c.toMap options = .ok (some M)) :
    M.sources.length = (c.outputTable options).usedSources.length ∧
      M.names.length = (c.outputTable options).usedNames.length := by
  obtain ⟨-, hsources, -, hnames, -, -, -⟩ := toMap_eq_some_iff.mp h
  exact ⟨by simpa using congrArg List.length hsources, by simpa using congrArg List.length hnames⟩

/-- **A map that was made from a result is made from itself again.** -/
theorem toMap_traced (h : c.toMap options = .ok (some M)) (t : Text) :
    (M.traced t (c.outputTable options).compact).toMap options = .ok (some M) := by
  obtain ⟨hlocations, hsources, hcontents, hnames, hencode, hfile, hroot⟩ := toMap_eq_some_iff.mp h
  obtain ⟨hsourceCount, hnameCount⟩ := length_of_toMap h
  rw [toMap_eq_some_iff, outputTable_traced, MappingTable.usedSources_compact,
    MappingTable.usedNames_compact, MappingTable.compact_compact, ← hsourceCount, ← hnameCount,
    outputContents_traced hcontents hsourceCount]
  refine ⟨?_, ?_, rfl, ?_, hencode, hfile, hroot⟩
  · rw [MappingTable.compact_eq_map, MappingTable.locations_map_renumber]
    exact fun hnil => hlocations (List.map_eq_nil_iff.mp hnil)
  · refine (map_firstNumbers fun i hi => ?_).symm
    simp [SourceMap.traced, ContentTable.names, hi]
  · refine (map_firstNumbers fun i hi => ?_).symm
    simp [SourceMap.traced, hi]

/-- The map of a bounded result is decoded to the table that it was made from. -/
theorem decode_toMap (hproper : c.Proper) (hwithin : ∀ m ∈ c.mappings, m.Within 0x7FFFFFFF)
    (h : c.toMap options = .ok (some M)) :
    MappingTable.decode M.mappings = .ok (c.outputTable options).compact := by
  obtain ⟨-, -, -, -, hencode, -, -⟩ := toMap_eq_some_iff.mp h
  have houtput := outputTable_proper hproper options
  have hplaced := houtput.markedBy.placed
  have hbounded := MappingTable.compact_within (outputTable_within hwithin options)
  refine MappingTable.decode_of_encode ?_ hbounded hencode
  rw [MappingTable.inOrder_compact]
  exact (MappingTable.inOrder_iff_sorted hplaced).mpr (houtput.increasing.sorted hplaced)

/-- The entries of a map refer to sources and names that it lists. -/
theorem listed_of_toMap (h : c.toMap options = .ok (some M)) :
    ∀ m ∈ (c.outputTable options).compact, ∀ o ∈ m.origin,
      o.Listed M.sources.length M.names.length := by
  obtain ⟨hsourceCount, hnameCount⟩ := length_of_toMap h
  intro m hm o ho
  rw [hsourceCount, hnameCount]
  exact MappingTable.listed_of_mem_compact hm ho

/-- The source map of a result has the source root that was asked for. -/
theorem sourceRoot_of_toMap (h : c.toMap options = .ok (some M)) :
    M.sourceRoot = options.sourceRoot := by
  obtain ⟨-, -, -, -, -, -, hroot⟩ := toMap_eq_some_iff.mp h
  exact hroot

/-- **The source map of a result is traced to a result with the same source map.** -/
theorem generate_fedBack (hproper : c.Proper) (htidy : c.Tidy) (hroot : options.sourceRoot = none)
    (h : c.toMap options = .ok (some M)) (name : Text) :
    generate { text := c.text, name := name, map := M } (List.replicate M.sources.length none)
        (c.outputTable options).compact =
      ([], .ok (M.traced c.text (c.outputTable options).compact)) := by
  obtain ⟨-, hsources, -, hnames, -, -, -⟩ := toMap_eq_some_iff.mp h
  have houtput := outputTable_proper hproper options
  refine generate_of_listed ((sourceRoot_of_toMap h).trans hroot)
    (nodup_of_map_some_eq htidy.sources (MappingTable.firstReferences_usedSources _).nodup hsources)
    (nodup_of_map_some_eq htidy.names (MappingTable.firstReferences_usedNames _).nodup hnames)
    ?_ ?_ ?_ (listed_of_toMap h)
  · rw [MappingTable.compact_eq_map]
    exact List.forall_mem_map.mpr fun m hm => MappingTable.inText_renumber (houtput.inText m hm)
  · rw [MappingTable.compact_eq_map]
    exact MappingTable.increasing_map_renumber houtput.increasing
  · rw [MappingTable.compact_eq_map]
    exact MappingTable.closed_map_renumber (outputTable_closed htidy options)

end Composition

end Provenance
