/-
# Renumbered tables

A table that goes into a source map refers to its sources and names by the order of their first
reference.  Renumbering leaves the generated positions alone, so that every position is found as
before, with its new indices.

The main facts:

* `firstReferences_eraseDups` : the indices in use, each once, in the order of first reference;
* `trace?_map_renumber` : renumbering commutes with looking up positions;
* `compact_within` : new indices are naturals no larger than the old ones may be;
* `usedSources_compact`, `usedNames_compact` : a compact table uses the first numbers;
* `compact_compact` : a compact table is left alone.
-/
import Mathlib.Data.List.Nodup
import Mathlib.Data.List.Perm.Subperm
import Provenance.Composition.Output
import Provenance.Proofs.Mapping.RoundTrip

namespace Provenance

/-! ## First references -/

section

variable {α : Type} [DecidableEq α]

/-- Some indices are those of a list of references, each once, in the order of their first
reference. -/
structure FirstReferences (references indices : List α) : Prop where
  nodup : indices.Nodup
  mem_iff : ∀ i, i ∈ indices ↔ i ∈ references
  ordered : indices.Pairwise fun i j => references.idxOf i < references.idxOf j

/-- A last reference adds its index, unless that is known. -/
theorem eraseDups_concat (references : List α) (i : α) :
    (references ++ [i]).eraseDups =
      if i ∈ references then references.eraseDups else references.eraseDups ++ [i] := by
  rw [List.eraseDups_append, List.removeAll, List.filter_singleton]
  by_cases h : i ∈ references
  · simp [h]
  · simp [h, List.eraseDups_cons]

/-- **The indices in use, each once, in the order of first reference.** -/
theorem firstReferences_eraseDups (references : List α) :
    FirstReferences references references.eraseDups := by
  refine ⟨?_, fun i => List.mem_eraseDups, ?_⟩
  · induction references using List.reverseRecOn with
    | nil => simp
    | append_singleton references i ih =>
      rw [eraseDups_concat]
      split
      · exact ih
      · rename_i hi
        refine List.nodup_append.mpr ⟨ih, List.pairwise_singleton _ i, fun j hj k hk => ?_⟩
        rw [List.mem_singleton.mp hk]
        rintro rfl
        exact hi (List.mem_eraseDups.mp hj)
  · induction references using List.reverseRecOn with
    | nil => simp
    | append_singleton references i ih =>
      have hbefore : ∀ j ∈ references.eraseDups, (references ++ [i]).idxOf j = references.idxOf j :=
        fun j hj => by rw [List.idxOf_append, if_pos (List.mem_eraseDups.mp hj)]
      have hlift := ih.imp_of_mem fun {j k} hj hk hjk => by
        rwa [← hbefore j hj, ← hbefore k hk] at hjk
      rw [eraseDups_concat]
      split
      · exact hlift
      · rename_i hi
        refine List.pairwise_append.mpr ⟨hlift, List.pairwise_singleton _ _, fun j hj k hk => ?_⟩
        obtain rfl := List.mem_singleton.mp hk
        rw [hbefore j hj, List.idxOf_append, if_neg hi]
        have := List.idxOf_lt_length_of_mem (List.mem_eraseDups.mp hj)
        omega

theorem FirstReferences.length_le {references indices : List α}
    (h : FirstReferences references indices) : indices.length ≤ references.length :=
  (List.subperm_of_subset h.nodup fun i hi => (h.mem_iff i).mp hi).length_le

/-- Renaming references, and keeping them apart, renames the indices in use. -/
theorem eraseDups_map {β : Type} [DecidableEq β] {f : α → β} {xs : List α}
    (hinj : ∀ x ∈ xs, ∀ y ∈ xs, f x = f y → x = y) :
    (xs.map f).eraseDups = xs.eraseDups.map f := by
  induction xs using List.reverseRecOn with
  | nil => rfl
  | append_singleton xs x ih =>
    have ih := ih fun y hy z hz =>
      hinj y (List.mem_append_left _ hy) z (List.mem_append_left _ hz)
    have hmem : f x ∈ xs.map f ↔ x ∈ xs := by
      constructor
      · intro h
        obtain ⟨y, hy, hyx⟩ := List.mem_map.mp h
        rwa [← hinj y (List.mem_append_left _ hy) x (List.mem_append_right _ List.mem_cons_self) hyx]
      · exact List.mem_map_of_mem
    rw [List.map_append, List.map_singleton, eraseDups_concat, eraseDups_concat, ih]
    simp only [hmem]
    split
    · rfl
    · rw [List.map_append, List.map_singleton]

end

/-! ## Bounded numbers -/

/-- A number is a natural up to a bound. -/
def Number.UpTo (bound : Nat) (x : Number) : Prop := ∃ n : Nat, n ≤ bound ∧ x = (n : Number)

/-- The numbers of a location are naturals up to a bound. -/
structure Location.Within (bound : Nat) (o : Location) : Prop where
  source : o.source.UpTo bound
  line : o.line.UpTo bound
  column : o.column.UpTo bound
  name : ∀ n ∈ o.name, n.UpTo bound

/-- The numbers of an entry are naturals up to a bound. -/
structure Mapping.Within (bound : Nat) (m : Mapping) : Prop where
  line : m.line.UpTo bound
  column : m.column.UpTo bound
  origin : ∀ o ∈ m.origin, o.Within bound

instance (bound : Nat) (x : Number) : Decidable (x.UpTo bound) :=
  decidable_of_iff (∃ n ∈ x.toNat?, n ≤ bound) <| by
    constructor
    · rintro ⟨n, hn, hle⟩
      exact ⟨n, hle, Number.eq_natCast_of_toNat? hn⟩
    · rintro ⟨n, hle, rfl⟩
      exact ⟨n, Number.toNat?_natCast n, hle⟩

instance (bound : Nat) (o : Location) : Decidable (o.Within bound) :=
  decidable_of_iff (o.source.UpTo bound ∧ o.line.UpTo bound ∧ o.column.UpTo bound ∧
      ∀ n ∈ o.name, n.UpTo bound)
    ⟨fun ⟨hs, hl, hc, hn⟩ => ⟨hs, hl, hc, hn⟩, fun h => ⟨h.source, h.line, h.column, h.name⟩⟩

instance (bound : Nat) (m : Mapping) : Decidable (m.Within bound) :=
  decidable_of_iff (m.line.UpTo bound ∧ m.column.UpTo bound ∧ ∀ o ∈ m.origin, o.Within bound)
    ⟨fun ⟨hl, hc, ho⟩ => ⟨hl, hc, ho⟩, fun h => ⟨h.line, h.column, h.origin⟩⟩

/-- The fields of a bounded entry. -/
theorem Mapping.Within.fields {bound : Nat} {m : Mapping} (h : m.Within bound) :
    ∀ x ∈ m.fields.toList, x.UpTo bound := by
  obtain ⟨line, column, origin⟩ := m
  intro x hx
  cases origin with
  | none =>
    obtain rfl := List.mem_singleton.mp hx
    exact h.column
  | some o =>
    have ho := h.origin o rfl
    rcases List.mem_cons.mp hx with rfl | hx
    · exact h.column
    rcases List.mem_cons.mp hx with rfl | hx
    · exact ho.source
    rcases List.mem_cons.mp hx with rfl | hx
    · exact ho.line
    rcases List.mem_cons.mp hx with rfl | hx
    · exact ho.column
    · exact ho.name x (Option.mem_toList.mp hx)

theorem Mapping.Within.natural {bound : Nat} {m : Mapping} (h : m.Within bound) : m.Natural := by
  refine List.forall_mem_cons.mpr ⟨?_, fun x hx => ?_⟩
  · obtain ⟨n, -, hn⟩ := h.line
    exact ⟨n, hn⟩
  · obtain ⟨n, -, hn⟩ := h.fields x hx
    exact ⟨n, hn⟩

theorem Mapping.Within.le {bound : Nat} {m : Mapping} (h : m.Within bound) :
    ∀ x ∈ m.fields.toList, x ≤ (bound : Number) := by
  intro x hx
  obtain ⟨n, hn, rfl⟩ := h.fields x hx
  exact Number.natCast_le.mpr hn

/-- A location refers to one of so many sources, and to one of so many names if it has one. -/
structure Location.Listed (sources names : Nat) (o : Location) : Prop where
  source : ∃ n < sources, o.source = ((n : Nat) : Number)
  name : ∀ i ∈ o.name, ∃ n < names, i = ((n : Nat) : Number)

/-! ## Renumbering -/

/-- A location with new indices. -/
def Location.renumber (source name : Number → Number) (o : Location) : Location :=
  { o with source := source o.source, name := o.name.map name }

/-- An entry with new indices. -/
def Mapping.renumber (source name : Number → Number) (m : Mapping) : Mapping :=
  { m with origin := m.origin.map (Location.renumber source name) }

namespace MappingTable

variable {source name : Number → Number} {table : MappingTable}

theorem compact_eq_map (table : MappingTable) :
    table.compact =
      table.map (Mapping.renumber (placeOf table.usedSources) (placeOf table.usedNames)) := rfl

/-- New indices do not change which entry is found. -/
theorem find?_map_renumber (table : MappingTable) (line column : Number) :
    find? (table.map (Mapping.renumber source name)) line column =
      (table.find? line column).map fun found => (found.1, found.2.renumber source name) := by
  have hpoint : partitionPoint (reaches line column) (table.map (Mapping.renumber source name)) =
      partitionPoint (reaches line column) table := partitionPoint_map _ fun _ _ => rfl
  rw [find?, find?, hpoint]
  cases partitionPoint (reaches line column) table with
  | zero => rfl
  | succ i =>
    simp only [List.getElem?_map]
    cases table[i]? with
    | none => rfl
    | some m =>
      simp only [Option.map_some]
      by_cases hline : m.line = line
      · rw [if_pos hline, if_pos (show (m.renumber source name).line = line from hline)]
        rfl
      · rw [if_neg hline, if_neg (show ¬ (m.renumber source name).line = line from hline)]
        rfl

/-- **Renumbering commutes with looking up positions.** -/
theorem trace?_map_renumber (table : MappingTable) (line column : Number) :
    trace? (table.map (Mapping.renumber source name)) line column =
      (table.trace? line column).map (Location.renumber source name) := by
  have hadvance : ∀ (o : Location) (d : Number),
      (o.renumber source name).advance d = (o.advance d).renumber source name := by
    intro o d
    simp only [Location.advance, Location.renumber]
    split <;> rfl
  rw [trace?, trace?, find?_map_renumber]
  cases table.find? line column with
  | none => rfl
  | some found =>
    obtain ⟨i, m⟩ := found
    cases ho : m.origin with
    | none => simp [Mapping.renumber, ho]
    | some o => simp [Mapping.renumber, ho, hadvance]

/-- An origin that is traced is that of an entry, moved along its line. -/
theorem exists_of_trace? {line column : Number} {o : Location}
    (h : table.trace? line column = some o) :
    ∃ m ∈ table, ∃ own ∈ m.origin, ∃ distance, o = own.advance distance := by
  rw [trace?] at h
  obtain ⟨⟨i, m⟩, hfind, h⟩ := Option.bind_eq_some_iff.mp h
  obtain ⟨own, hown, ho⟩ := Option.bind_eq_some_iff.mp h
  exact ⟨m, List.mem_of_getElem? (find?_line hfind).2, own, hown, _, (Option.some.inj ho).symm⟩

theorem locations_map_renumber (table : MappingTable) :
    locations (table.map (Mapping.renumber source name)) =
      table.locations.map (Location.renumber source name) := by
  rw [locations, locations, List.filterMap_map, List.map_filterMap]
  rfl

/-! ## Places among the indices in use -/

theorem mem_locations {o : Location} : o ∈ table.locations ↔ ∃ m ∈ table, m.origin = some o :=
  List.mem_filterMap

theorem source_mem_usedSources {o : Location} (h : o ∈ table.locations) :
    o.source ∈ table.usedSources :=
  List.mem_eraseDups.mpr (List.mem_map_of_mem h)

theorem name_mem_usedNames {o : Location} (h : o ∈ table.locations) {n : Number}
    (hn : o.name = some n) : n ∈ table.usedNames :=
  List.mem_eraseDups.mpr (List.mem_filterMap.mpr ⟨o, h, hn⟩)

/-- Under the new number of an index in use stands the index. -/
theorem getElem?_placeOf {used : List Number} {index : Number} (h : index ∈ used) :
    (placeOf used index).toNat?.bind (used[·]?) = some index := by
  rw [placeOf, Number.toNat?_natCast, Option.bind_some, List.getElem?_idxOf h]

/-- The new number of an index in use is no larger than the indices may be. -/
theorem placeOf_upTo {used : List Number} (hnodup : used.Nodup) {bound : Nat}
    (hused : ∀ i ∈ used, i.UpTo bound) {index : Number} (h : index ∈ used) :
    (placeOf used index).UpTo bound := by
  -- different naturals up to a bound are no more than the bound and one
  have hsubset : used ⊆ (List.range (bound + 1)).map fun n : Nat => (n : Number) := by
    intro i hi
    obtain ⟨n, hn, rfl⟩ := hused i hi
    exact List.mem_map_of_mem (List.mem_range.mpr (Nat.lt_succ_of_le hn))
  have hlength := (List.subperm_of_subset hnodup hsubset).length_le
  rw [List.length_map, List.length_range] at hlength
  have hlt := List.idxOf_lt_length_of_mem h
  exact ⟨used.idxOf index, by omega, rfl⟩

/-! ## Compact tables -/

theorem firstReferences_usedSources (table : MappingTable) :
    FirstReferences (table.locations.map Location.source) table.usedSources :=
  firstReferences_eraseDups _

theorem firstReferences_usedNames (table : MappingTable) :
    FirstReferences (table.locations.filterMap Location.name) table.usedNames :=
  firstReferences_eraseDups _

/-- The generated positions of a compact table are those of the table. -/
theorem inOrder_compact (table : MappingTable) : table.compact.inOrder = table.inOrder := by
  rw [compact_eq_map]
  generalize placeOf table.usedSources = source
  generalize placeOf table.usedNames = name
  induction table with
  | nil => rfl
  | cons m rest ih =>
    cases rest with
    | nil => rfl
    | cons b rest =>
      rw [List.map_cons, List.map_cons, inOrder, inOrder, ← List.map_cons, ih]
      rfl

/-- **The numbers of a compact table are bounded as those of the table are.** -/
theorem compact_within {bound : Nat} (h : ∀ m ∈ table, m.Within bound) :
    ∀ m ∈ table.compact, m.Within bound := by
  have hlocation : ∀ o ∈ table.locations, o.Within bound := by
    intro o ho
    obtain ⟨m, hm, hmo⟩ := mem_locations.mp ho
    exact (h m hm).origin o hmo
  have hsources : ∀ i ∈ table.usedSources, i.UpTo bound := by
    intro i hi
    obtain ⟨o, ho, rfl⟩ := List.mem_map.mp (List.mem_eraseDups.mp hi)
    exact (hlocation o ho).source
  have hnames : ∀ i ∈ table.usedNames, i.UpTo bound := by
    intro i hi
    obtain ⟨o, ho, hn⟩ := List.mem_filterMap.mp (List.mem_eraseDups.mp hi)
    exact (hlocation o ho).name i hn
  intro m' hm'
  obtain ⟨m, hm, rfl⟩ := List.mem_map.mp hm'
  refine ⟨(h m hm).line, (h m hm).column, fun o' ho' => ?_⟩
  obtain ⟨o, hmo, rfl⟩ := Option.map_eq_some_iff.mp ho'
  have ho : o ∈ table.locations := mem_locations.mpr ⟨m, hm, hmo⟩
  refine ⟨?_, (hlocation o ho).line, (hlocation o ho).column, fun n' hn' => ?_⟩
  · exact placeOf_upTo (firstReferences_usedSources table).nodup hsources
      (source_mem_usedSources ho)
  · obtain ⟨n, hn, rfl⟩ := Option.map_eq_some_iff.mp hn'
    exact placeOf_upTo (firstReferences_usedNames table).nodup hnames (name_mem_usedNames ho hn)

/-- The numbers from 0 up to a count. -/
def firstNumbers (count : Nat) : List Number := (List.range count).map fun n : Nat => (n : Number)

/-- The new numbers of the indices in use count from 0. -/
theorem map_placeOf {used : List Number} (h : used.Nodup) :
    used.map (placeOf used) = firstNumbers used.length := by
  apply List.ext_getElem
  · simp [firstNumbers]
  · intro i hi _
    have hi : i < used.length := by simpa using hi
    simp [firstNumbers, placeOf, h.idxOf_getElem i hi]

/-- Each number is at its own place among the numbers from 0. -/
theorem placeOf_firstNumbers {count n : Nat} (h : n < count) :
    placeOf (firstNumbers count) (n : Number) = (n : Number) := by
  have hnodup : (firstNumbers count).Nodup :=
    List.nodup_range.map fun _ _ hab => Number.natCast_inj.mp hab
  have hlength : n < (firstNumbers count).length := by simpa [firstNumbers] using h
  have hget : (firstNumbers count)[n] = (n : Number) := by simp [firstNumbers]
  have hidx := hnodup.idxOf_getElem n hlength
  rw [hget] at hidx
  rw [placeOf, hidx]

/-- The indices in use, numbered, are the first numbers. -/
theorem eraseDups_map_placeOf (references : List Number) :
    (references.map (placeOf references.eraseDups)).eraseDups =
      firstNumbers references.eraseDups.length := by
  rw [eraseDups_map, map_placeOf (firstReferences_eraseDups references).nodup]
  intro i hi j _ hij
  exact (List.idxOf_inj (List.mem_eraseDups.mpr hi)).mp (Number.natCast_inj.mp hij)

theorem usedSources_compact (table : MappingTable) :
    table.compact.usedSources = firstNumbers table.usedSources.length := by
  have hreferences : table.compact.locations.map Location.source =
      (table.locations.map Location.source).map (placeOf table.usedSources) := by
    rw [compact_eq_map, locations_map_renumber, List.map_map, List.map_map]
    rfl
  rw [usedSources, hreferences]
  exact eraseDups_map_placeOf _

theorem usedNames_compact (table : MappingTable) :
    table.compact.usedNames = firstNumbers table.usedNames.length := by
  have hreferences : table.compact.locations.filterMap Location.name =
      (table.locations.filterMap Location.name).map (placeOf table.usedNames) := by
    rw [compact_eq_map, locations_map_renumber, List.filterMap_map, List.map_filterMap]
    rfl
  rw [usedNames, hreferences]
  exact eraseDups_map_placeOf _

/-- The new number of an index in use is one of the first numbers. -/
theorem placeOf_lt {used : List Number} {index : Number} (h : index ∈ used) :
    ∃ n < used.length, placeOf used index = (n : Number) :=
  ⟨used.idxOf index, List.idxOf_lt_length_of_mem h, rfl⟩

/-- There are no more indices in use than entries. -/
theorem length_used_le (table : MappingTable) :
    table.usedSources.length ≤ table.length ∧ table.usedNames.length ≤ table.length := by
  have hlocations : table.locations.length ≤ table.length := List.length_filterMap_le _ _
  have hsources := (firstReferences_usedSources table).length_le
  have hnames := (firstReferences_usedNames table).length_le
  have hnamed := List.length_filterMap_le Location.name table.locations
  rw [List.length_map] at hsources
  omega

/-- The locations of a compact table refer to the first numbers. -/
theorem listed_of_mem_compact {m : Mapping} (hm : m ∈ table.compact) {o : Location}
    (ho : m.origin = some o) : o.Listed table.usedSources.length table.usedNames.length := by
  obtain ⟨own, hown, rfl⟩ := List.mem_map.mp hm
  obtain ⟨old, hold, rfl⟩ := Option.map_eq_some_iff.mp ho
  have hmem : old ∈ table.locations := mem_locations.mpr ⟨own, hown, hold⟩
  refine ⟨placeOf_lt (source_mem_usedSources hmem), fun i hi => ?_⟩
  obtain ⟨n, hn, rfl⟩ := Option.map_eq_some_iff.mp hi
  exact placeOf_lt (name_mem_usedNames hmem hn)

/-- **A compact table is left alone.** -/
theorem compact_compact (table : MappingTable) : table.compact.compact = table.compact := by
  rw [compact_eq_map table.compact, usedSources_compact, usedNames_compact]
  refine (List.map_congr_left fun m hm => ?_).trans (List.map_id _)
  obtain ⟨line, column, origin⟩ := m
  cases origin with
  | none => rfl
  | some o =>
    obtain ⟨⟨n, hn, hsource⟩, hname⟩ := listed_of_mem_compact hm rfl
    have hname : o.name.map (placeOf (firstNumbers table.usedNames.length)) = o.name.map id :=
      Option.map_congr fun i hi => by
        obtain ⟨k, hk, rfl⟩ := hname i hi
        exact placeOf_firstNumbers hk
    rw [Option.map_id] at hname
    simp only [Mapping.renumber, Location.renumber, Option.map_some, hname, hsource,
      placeOf_firstNumbers hn, id]
    rw [← hsource]

end MappingTable

end Provenance
