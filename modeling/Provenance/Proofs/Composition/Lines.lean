/-
# Source maps of lines

The source map of a result that does without columns has one entry for each line on which the result has
an origin.  The entry stands at the start of the line, and leads to the start of the line that the first
origin is on.

The main facts:

* `filter_firstOfLines` : the entries of a line in the table of lines;
* `toMap_outcome` : whether a bounded result has a source map, in terms of its table;
* `toMap_lines` : a result has a source map of lines if and only if it has one of columns;
* `mapsLines_of_toMap` : what the source map of lines says.
-/
import Provenance.Proofs.Composition.Feedback

namespace Provenance

/-! ## The table of lines -/

namespace MappingTable

variable {table : MappingTable}

/-- The first location that an entry on a line leads to. -/
def firstOnLine? (table : MappingTable) (line : Number) : Option Location :=
  (table.filter (·.line = line)).findSome? Mapping.origin

/-- The entry at the start of a line that leads to the start of a line. -/
def lineEntry (line : Number) (o : Location) : Mapping := ⟨line, 0, some ⟨o.source, o.line, 0, none⟩⟩

theorem firstOnLine?_cons (m : Mapping) (rest : MappingTable) (line : Number) :
    firstOnLine? (m :: rest) line =
      if m.line = line then m.origin.or (firstOnLine? rest line) else firstOnLine? rest line := by
  unfold firstOnLine?
  by_cases h : m.line = line
  · rw [List.filter_cons_of_pos (by simpa using h), List.findSome?_cons, if_pos h]
    cases m.origin <;> rfl
  · rw [List.filter_cons_of_neg (by simpa using h), if_neg h]

/-- There is a first location on the line of every entry that has one. -/
theorem isSome_firstOnLine? {m : Mapping} (hm : m ∈ table) (ho : m.origin.isSome) :
    (table.firstOnLine? m.line).isSome :=
  List.findSome?_isSome_iff.mpr ⟨m, List.mem_filter.mpr ⟨hm, by simp⟩, ho⟩

/-- Behind an entry, no other one is kept for its line. -/
theorem filter_linesAfter_self {first : Mapping} {rest : MappingTable}
    (hplaced : Placed (first :: rest)) (hsorted : Sorted (first :: rest)) :
    (linesAfter first.line rest).filter (·.line = first.line) = [] := by
  obtain ⟨hfirst, hrest⟩ := List.forall_mem_cons.mp hplaced
  have hnext : ∀ m ∈ rest, (first.place.line : Int) ≤ m.place.line := by
    intro m hm
    have := Text.Position.le_iff.mp (List.rel_of_pairwise_cons hsorted hm)
    omega
  -- the entries that are kept are on later lines
  obtain ⟨hlater, -⟩ := linesAfter_increasing _ hrest hsorted.of_cons hnext
  rw [Number.intCast_natCast, ← hfirst.line] at hlater
  refine List.filter_eq_nil_iff.mpr fun m hm => ?_
  obtain ⟨hm, hlt⟩ := hlater m hm
  rw [decide_eq_true_iff, hm.line, hfirst.line, Number.natCast_inj]
  omega

/-- The entries of a line other than the remembered one. -/
theorem filter_linesAfter {before line : Number} (hplaced : table.Placed) (hsorted : table.Sorted)
    (hne : line ≠ before) :
    (linesAfter before table).filter (·.line = line) =
      ((table.firstOnLine? line).map (lineEntry line)).toList := by
  induction table generalizing before with
  | nil => rfl
  | cons first rest ih =>
    obtain ⟨-, hrest⟩ := List.forall_mem_cons.mp hplaced
    rw [firstOnLine?_cons, linesAfter]
    cases first.origin with
    | none =>
      rw [Option.none_or, ite_self]
      exact ih hrest hsorted.of_cons hne
    | some o =>
      dsimp only
      split
      · rename_i hbefore
        rw [if_neg (fun h => hne (h.symm.trans hbefore))]
        exact ih hrest hsorted.of_cons hne
      · by_cases hline : first.line = line
        · have hnone := filter_linesAfter_self hplaced hsorted
          rw [hline] at hnone
          rw [List.filter_cons_of_pos (by simpa using hline), if_pos hline, hline, hnone]
          rfl
        · rw [List.filter_cons_of_neg (by simpa using hline), if_neg hline]
          exact ih hrest hsorted.of_cons (fun h => hline h.symm)

/-- **The entries of a line in the table of lines**: one if an entry on the line has an origin, else
none. -/
theorem filter_firstOfLines (hplaced : table.Placed) (hsorted : table.Sorted) (line : Number) :
    table.firstOfLines.filter (·.line = line) =
      ((table.firstOnLine? line).map (lineEntry line)).toList := by
  by_cases hline : line = ((-1 : Int) : Number)
  · -- no entry is on the line -1
    have hnone : ∀ m : Mapping, m.Placed → m.line ≠ line := by
      intro m hm h
      rw [hm.line, hline, ← Number.intCast_natCast, Number.intCast_inj] at h
      omega
    have hentries : table.filter (·.line = line) = [] :=
      List.filter_eq_nil_iff.mpr fun m hm => by simpa using hnone m (hplaced m hm)
    have hlines : table.firstOfLines.filter (·.line = line) = [] :=
      List.filter_eq_nil_iff.mpr fun m hm => by
        simpa using hnone m ((firstOfLines_increasing hplaced hsorted).1 m hm)
    rw [hlines, firstOnLine?, hentries]
    rfl
  · exact filter_linesAfter hplaced hsorted hline

/-- A table has an origin if and only if its table of lines has one. -/
theorem locations_firstOfLines (hplaced : table.Placed) (hsorted : table.Sorted) :
    table.firstOfLines.locations = [] ↔ table.locations = [] := by
  rw [locations, locations, List.filterMap_eq_nil_iff, List.filterMap_eq_nil_iff]
  constructor
  · intro h m hm
    by_contra hsome
    obtain ⟨o, ho⟩ := Option.isSome_iff_exists.mp
      (isSome_firstOnLine? hm (Option.isSome_iff_ne_none.mpr hsome))
    have hentry : lineEntry m.line o ∈ table.firstOfLines.filter (·.line = m.line) := by
      rw [filter_firstOfLines hplaced hsorted, ho]
      exact List.mem_singleton_self _
    have hnone := h _ (List.mem_of_mem_filter hentry)
    cases hnone
  · intro h m hm
    obtain ⟨own, hown, o, ho, -⟩ := exists_of_mem_firstOfLines hm
    rw [h own hown] at ho
    cases ho

end MappingTable

namespace Composition

variable {c : Composition} {options : OutputOptions} {M : SourceMap}

/-! ## When there is a source map -/

/-- **Whether a bounded result has a source map**: it has none if no entry that goes into it has an
origin, and cannot be written if the text of these entries is too long. -/
theorem toMap_outcome (hproper : c.Proper) (hwithin : ∀ m ∈ c.mappings, m.Within 0x7FFFFFFF)
    (options : OutputOptions) :
    ∃ t, (c.outputTable options).compact.HasText t ∧
      (c.toMap options).map Option.isSome =
        if (c.outputTable options).locations = [] then .ok false
        else if t.length ≤ Text.maxLength then .ok true
        else .error (.encode .textTooLong) := by
  have houtput := outputTable_proper hproper options
  have hplaced := houtput.markedBy.placed
  have horder := (MappingTable.inOrder_iff_sorted hplaced).mpr (houtput.increasing.sorted hplaced)
  obtain ⟨t, ht, -⟩ := MappingTable.encode_decode
    (by rw [MappingTable.inOrder_compact]; exact horder)
    (MappingTable.compact_within (outputTable_within hwithin options))
  refine ⟨t, ht, ?_⟩
  split
  · rename_i hempty
    rw [toMap_eq_none hempty]
    rfl
  · rename_i hlocations
    obtain ⟨hsome, herror⟩ := toMap_of_known c options hlocations houtput.known
    rw [ht.encode_eq] at hsome herror
    split
    · rename_i hfits
      obtain ⟨M, hM, -⟩ := hsome t (if_pos hfits)
      rw [hM]
      rfl
    · rename_i hlong
      rw [herror _ (if_neg hlong)]
      rfl

/-- **A result has a source map of lines if and only if it has one of columns**, as far as their texts
are not too long. -/
theorem toMap_lines (hproper : c.Proper) (hwithin : ∀ m ∈ c.mappings, m.Within 0x7FFFFFFF)
    (options : OutputOptions) (columns : Bool) :
    ∃ t, (c.outputTable { options with columns }).compact.HasText t ∧
      (c.toMap { options with columns }).map Option.isSome =
        if c.mappings.locations = [] then .ok false
        else if t.length ≤ Text.maxLength then .ok true
        else .error (.encode .textTooLong) := by
  have hplaced := hproper.markedBy.placed
  have hlocations : (c.outputTable { options with columns }).locations = [] ↔
      c.mappings.locations = [] := by
    cases columns with
    | true => rfl
    | false => exact MappingTable.locations_firstOfLines hplaced (hproper.increasing.sorted hplaced)
  simpa only [hlocations] using toMap_outcome hproper hwithin { options with columns }

/-! ## What a source map of lines says -/

/-- A source map with a decoded table maps the lines of a result.  On each line on which an entry of the
result has an origin there is one entry, at the start of the line: it leads to the start of the line that
the first of these origins is on, and has no name.  There are no entries on other lines.  The map lists
the sources that its entries refer to, each once, in the order of first reference. -/
structure MapsLines (c : Composition) (M : SourceMap) (table : MappingTable) : Prop where
  increasing : table.Increasing
  entries : ∀ line : Number, (table.filter (·.line = line)).map
      (fun m => (m.column, m.origin.map fun o =>
        (TextTable.get? ⟨M.sources⟩ o.source, o.line, o.column, o.name))) =
    ((c.mappings.firstOnLine? line).map fun o =>
      (0, some (c.sources.names.get? o.source, o.line, 0, none))).toList
  sources : FirstReferences (table.locations.map fun o => TextTable.get? ⟨M.sources⟩ o.source)
    (M.sources.map some)

/-- The new numbers of the sources in use stand for the texts of the old ones. -/
theorem get?_placeOf {t : TextTable} {used : List Number} {texts : List Text}
    (h : texts.map some = used.map t.get?) {index : Number} (hindex : index ∈ used) :
    TextTable.get? ⟨texts⟩ (MappingTable.placeOf used index) = t.get? index :=
  getElem?_placeOf_eq h hindex

/-- The sources that a map lists are those that the entries of its table refer to, in the order of first
reference. -/
theorem firstReferences_sources {table : MappingTable} {t : TextTable} {texts : List Text}
    (ht : t.texts.Nodup) (h : texts.map some = table.usedSources.map t.get?) :
    FirstReferences (table.compact.locations.map fun o => TextTable.get? ⟨texts⟩ o.source)
      (texts.map some) := by
  have hreferences : (table.compact.locations.map fun o => TextTable.get? ⟨texts⟩ o.source) =
      (table.locations.map Location.source).map t.get? := by
    rw [MappingTable.compact_eq_map, MappingTable.locations_map_renumber, List.map_map, List.map_map]
    refine List.map_congr_left fun o ho => ?_
    exact get?_placeOf h (MappingTable.source_mem_usedSources ho)
  -- different indices in use have different texts
  have hnodup : (table.usedSources.map t.get?).Nodup := by
    rw [← h]
    exact (nodup_of_map_some_eq ht (MappingTable.firstReferences_usedSources _).nodup h).map
      (Option.some_injective _)
  have hinjective : ∀ i ∈ table.locations.map Location.source,
      ∀ j ∈ table.locations.map Location.source, t.get? i = t.get? j → i = j := by
    intro i hi j hj hij
    exact List.inj_on_of_nodup_map hnodup (List.mem_eraseDups.mpr hi) (List.mem_eraseDups.mpr hj) hij
  rw [hreferences, h, MappingTable.usedSources, ← eraseDups_map hinjective]
  exact firstReferences_eraseDups _

/-- **What the source map of lines says.** -/
theorem mapsLines_of_toMap (hproper : c.Proper) (htidy : c.Tidy) (hcolumns : options.columns = false)
    (h : c.toMap options = .ok (some M)) : c.MapsLines M (c.outputTable options).compact := by
  obtain ⟨-, hsources, -, -, -, -, -⟩ := toMap_eq_some_iff.mp h
  have hplaced := hproper.markedBy.placed
  have hlines := MappingTable.filter_firstOfLines hplaced (hproper.increasing.sorted hplaced)
  have houtput := outputTable_proper hproper options
  have htable : c.outputTable options = c.mappings.firstOfLines := by simp [outputTable, hcolumns]
  refine ⟨?_, fun line => ?_, firstReferences_sources htidy.sources hsources⟩
  · rw [MappingTable.compact_eq_map]
    exact MappingTable.increasing_map_renumber houtput.increasing
  · have hline := hlines line
    rw [← htable] at hline
    have hfilter : (c.outputTable options).compact.filter (·.line = line) =
        ((c.outputTable options).filter (·.line = line)).map (Mapping.renumber
          (MappingTable.placeOf (c.outputTable options).usedSources)
          (MappingTable.placeOf (c.outputTable options).usedNames)) := by
      rw [MappingTable.compact_eq_map, List.filter_map]
      rfl
    rw [hfilter, hline]
    cases ho : c.mappings.firstOnLine? line with
    | none => rfl
    | some o =>
      have hentry : MappingTable.lineEntry line o ∈ c.outputTable options := by
        refine List.mem_of_mem_filter (p := (·.line = line)) ?_
        rw [hline, ho]
        exact List.mem_singleton_self _
      have hsource := get?_placeOf hsources (MappingTable.source_mem_usedSources
        (MappingTable.mem_locations.mpr ⟨_, hentry, rfl⟩))
      simp [MappingTable.lineEntry, Mapping.renumber, Location.renumber, hsource]

end Composition

end Provenance
