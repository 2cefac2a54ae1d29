/-
# Looking up in tables in order

Binary search in a table in order, with lines and columns that are integers, comes to the same as going
through the whole table: it finds the last entry on a line up to a column.  Entries that share a position
and lines without entries make no difference.  Whatever the table is, the search looks inside it only.

The main facts:

* `find?_eq_some_iff`, `find?_eq_none_iff` : what binary search finds, and when it finds nothing;
* `lt_length_of_mem_looksAt`, `find?_congr` : a lookup depends on entries inside the table only;
* `search_finds_last` : a lookup by binary search is one by going through the table.
-/
import Provenance.Proofs.Mapping.Integral
import Provenance.Proofs.Search

namespace Provenance.MappingTable

variable {table other : MappingTable} {line column : Int} {i j : Nat} {a b m : Mapping}

/-! ## The last entry on a line up to a column -/

/-- An entry is the last one of a table on a line up to a column. -/
structure LastUpTo (table : MappingTable) (l c : Number) (i : Nat) (m : Mapping) : Prop where
  entry : table[i]? = some m
  line : m.line = l
  column : m.column ≤ c
  last : ∀ j b, i < j → table[j]? = some b → b.line = l → ¬ b.column ≤ c

/-- What does not precede an entry that a position is behind, the position is behind as well. -/
theorem reaches_of_not_precedes (ha : a.Integral) (hb : b.Integral) (h : (!b.precedes a) = true)
    (hreaches : reaches (line : Number) (column : Number) b = true) :
    reaches (line : Number) (column : Number) a = true := by
  obtain ⟨l, c, hl, hc⟩ := ha
  obtain ⟨l', c', hl', hc'⟩ := hb
  simp only [reaches, Mapping.precedes, hl, hc, hl', hc', Number.intCast_lt, Number.intCast_le,
    Number.intCast_inj, Bool.or_eq_true, Bool.and_eq_true, Bool.not_eq_true', decide_eq_true_eq,
    ← Bool.not_eq_true] at h hreaches ⊢
  omega

/-- An entry on the line of a position is reached if it starts up to the column. -/
theorem reaches_of_line (hline : m.line = (line : Number)) :
    reaches (line : Number) (column : Number) m = true ↔ m.column ≤ (column : Number) := by
  simp [reaches, hline]

/-- The entries that a position is behind are those before the point that the search finds. -/
theorem lt_point_iff (h : table.Integral) (hin : table.inOrder = true) (hi : table[i]? = some m) :
    i < partitionPoint (reaches (line : Number) (column : Number)) table ↔
      reaches (line : Number) (column : Number) m = true :=
  lt_partitionPoint_iff ((h.pairwise_of_inOrder hin).imp_of_mem fun {a b} ha hb hab =>
    reaches_of_not_precedes (h a ha) (h b hb) hab) hi

/-- In a table in order no entry is on an earlier line than one that it follows. -/
theorem not_line_lt_of_lt (h : table.Integral) (hin : table.inOrder = true) (hij : i < j)
    (hi : table[i]? = some a) (hj : table[j]? = some b) : ¬ b.line < a.line := by
  obtain ⟨hilt, rfl⟩ := List.getElem?_eq_some_iff.mp hi
  obtain ⟨hjlt, rfl⟩ := List.getElem?_eq_some_iff.mp hj
  have horder := List.pairwise_iff_getElem.mp (h.pairwise_of_inOrder hin) i j hilt hjlt hij
  rw [Bool.not_eq_true', ← Bool.not_eq_true, Mapping.precedes, Bool.or_eq_true,
    decide_eq_true_eq] at horder
  exact fun hlt => horder (Or.inl hlt)

/-- The entry that is found stands directly before the point that the search finds. -/
theorem point_of_find? {line column : Number} (hfind : table.find? line column = some (i, m)) :
    partitionPoint (reaches line column) table = i + 1 := by
  unfold find? at hfind
  cases hpoint : partitionPoint (reaches line column) table with
  | zero =>
    rw [hpoint] at hfind
    cases hfind
  | succ k =>
    simp only [hpoint] at hfind
    split at hfind
    · split at hfind
      · rw [(Prod.mk.inj (Option.some.inj hfind)).1]
      · cases hfind
    · cases hfind

/-- What is found is the last entry on the line up to the column. -/
theorem lastUpTo_of_find? (h : table.Integral) (hin : table.inOrder = true)
    (hfind : table.find? (line : Number) (column : Number) = some (i, m)) :
    table.LastUpTo (line : Number) (column : Number) i m := by
  obtain ⟨hline, hentry⟩ := find?_line hfind
  have hpoint := point_of_find? hfind
  refine ⟨hentry, hline, ?_, fun j b hij hj hbline hbcolumn => ?_⟩
  · rw [← reaches_of_line hline, ← lt_point_iff h hin hentry, hpoint]
    exact Nat.lt_succ_self i
  · have hlt := (lt_point_iff h hin hj).mpr ((reaches_of_line hbline).mpr hbcolumn)
    omega

/-- Where an entry is on the line up to the column, it or a later one is found. -/
theorem exists_find? (h : table.Integral) (hin : table.inOrder = true) (hi : table[i]? = some m)
    (hline : m.line = (line : Number)) (hcolumn : m.column ≤ (column : Number)) :
    ∃ k b, i ≤ k ∧ table.find? (line : Number) (column : Number) = some (k, b) := by
  have hlt := (lt_point_iff h hin hi).mpr ((reaches_of_line hline).mpr hcolumn)
  have hle := partitionPoint_le (reaches (line : Number) (column : Number)) table
  obtain ⟨k, hk⟩ := Nat.exists_eq_add_one_of_ne_zero (Nat.ne_zero_of_lt hlt)
  have hget : table[k]? = some table[k] := List.getElem?_eq_getElem (by omega)
  -- the entry before the point is on no later line than the position, and on no earlier one than `m`
  have hreaches : reaches (line : Number) (column : Number) table[k] = true :=
    (lt_point_iff h hin hget).mp (by omega)
  obtain ⟨l, c, hl, hc⟩ := h table[k] (List.getElem_mem _)
  have hkline : table[k].line = (line : Number) := by
    rcases Nat.lt_or_eq_of_le (Nat.le_of_lt_succ (hk ▸ hlt)) with hik | rfl
    · have horder := not_line_lt_of_lt h hin hik hi hget
      simp only [reaches, hl, hline, Number.intCast_lt, Number.intCast_inj, Bool.or_eq_true,
        Bool.and_eq_true, decide_eq_true_eq] at hreaches horder ⊢
      omega
    · rw [Option.some.inj (hget.symm.trans hi), hline]
  refine ⟨k, table[k], by omega, ?_⟩
  unfold find?
  rw [hk]
  simp only [hget, if_pos hkline]

/-- **Binary search finds the last entry on the line up to the column.** -/
theorem find?_eq_some_iff (h : table.Integral) (hin : table.inOrder = true) :
    table.find? (line : Number) (column : Number) = some (i, m) ↔
      table.LastUpTo (line : Number) (column : Number) i m := by
  refine ⟨lastUpTo_of_find? h hin, fun hlast => ?_⟩
  obtain ⟨k, b, hik, hfind⟩ := exists_find? h hin hlast.entry hlast.line hlast.column
  have hfound := lastUpTo_of_find? h hin hfind
  rcases Nat.lt_or_eq_of_le hik with hik | rfl
  · exact absurd hfound.column (hlast.last k b hik hfound.entry hfound.line)
  · rw [hfind, Option.some.inj (hfound.entry.symm.trans hlast.entry)]

/-- **Binary search finds nothing** if no entry on the line starts up to the column, and only then. -/
theorem find?_eq_none_iff (h : table.Integral) (hin : table.inOrder = true) :
    table.find? (line : Number) (column : Number) = none ↔
      ∀ m ∈ table, m.line = (line : Number) → ¬ m.column ≤ (column : Number) := by
  constructor
  · intro hnone m hm hline hcolumn
    obtain ⟨i, hi⟩ := List.getElem?_of_mem hm
    obtain ⟨k, b, -, hfind⟩ := exists_find? h hin hi hline hcolumn
    rw [hnone] at hfind
    cases hfind
  · intro hnone
    rw [Option.eq_none_iff_forall_not_mem]
    rintro ⟨i, m⟩ hfind
    have hlast := lastUpTo_of_find? h hin hfind
    exact hnone m (List.mem_of_getElem? hlast.entry) hlast.line hlast.column

/-! ## Tracing -/

/-- What an entry on integers maps a column of its line to. -/
theorem trace?_of_find? (hfind : table.find? (line : Number) (column : Number) = some (i, m))
    (hm : m.Integral) {o : Location} (ho : m.origin = some o) :
    table.trace? (line : Number) (column : Number) =
      some ⟨o.source, o.line, o.column + ((column : Number) - m.column),
        if m.column = (column : Number) then o.name else none⟩ := by
  obtain ⟨l, c, hl, hc⟩ := hm
  have hdistance : (column : Number) - (c : Number) = 0 ↔ (c : Number) = (column : Number) := by
    rw [Number.intCast_sub, Number.ofNat_eq_natCast, Number.rounded_intCast_eq_zero,
      Number.intCast_inj]
    omega
  unfold trace?
  simp only [hfind, ho, Option.bind_eq_bind, Option.bind_some, Location.advance, hc, hdistance]

/-! ## Where a lookup looks -/

/-- The indices at which a lookup looks: those of the search, and that of the entry before the point
that the search finds. -/
def looksAt (table : MappingTable) (line column : Number) : List Nat :=
  probesBetween (reaches line column) table 0 table.length ++
    match partitionPoint (reaches line column) table with
    | 0 => []
    | i + 1 => [i]

/-- A lookup looks inside the table only. -/
theorem lt_length_of_mem_looksAt {line column : Number} (hi : i ∈ table.looksAt line column) :
    i < table.length := by
  have hle := partitionPoint_le (reaches line column) table
  rcases List.mem_append.mp hi with hi | hi
  · exact (mem_probesBetween hi).2
  · split at hi
    · cases hi
    · rw [List.mem_singleton.mp hi]
      omega

/-- A table of fewer than 2^k entries is looked at k + 1 times at most. -/
theorem length_looksAt_le {line column : Number} {k : Nat} (h : table.length < 2 ^ k) :
    (table.looksAt line column).length ≤ k + 1 := by
  rw [looksAt, List.length_append]
  apply Nat.add_le_add
  · exact length_probesBetween_le h
  · split
    · exact Nat.zero_le 1
    · exact Nat.le_refl 1

/-- **What a lookup does not look at does not matter.** -/
theorem find?_congr {line column : Number} (hlength : other.length = table.length)
    (h : ∀ i ∈ table.looksAt line column, other[i]? = table[i]?) :
    other.find? line column = table.find? line column := by
  obtain ⟨hprobes, hentry⟩ := List.forall_mem_append.mp h
  have hpoint : partitionPoint (reaches line column) other =
      partitionPoint (reaches line column) table := by
    rw [partitionPoint, partitionPoint, hlength]
    exact partitionBetween_congr hprobes
  unfold find?
  rw [hpoint]
  split
  · rfl
  · rename_i k hk
    rw [hk] at hentry
    rw [hentry k List.mem_cons_self]

/-! ## Lookups -/

/-- **A lookup by binary search is one by going through the table.**  In a table in order, with repeated
positions or without, what is found is the entry of greatest index on the line up to the column, and
nothing where there is none.  The position is traced to nothing if nothing is found, or an entry without
an origin, and else as far from the origin as it is from the entry, with the name only at the entry
itself.  The search looks at k + 1 entries at most in a table of fewer than 2^k, all of them inside the
table, and no other entry matters. -/
theorem search_finds_last (h : table.Integral) (hin : table.inOrder = true) (line column : Int) :
    (∀ i m, table.find? (line : Number) (column : Number) = some (i, m) ↔
      table.LastUpTo (line : Number) (column : Number) i m) ∧
    (table.find? (line : Number) (column : Number) = none ↔
      ∀ m ∈ table, m.line = (line : Number) → ¬ m.column ≤ (column : Number)) ∧
    (table.trace? (line : Number) (column : Number) = none ↔
      ∀ i m, table.LastUpTo (line : Number) (column : Number) i m → m.origin = none) ∧
    (∀ i m o, table.LastUpTo (line : Number) (column : Number) i m → m.origin = some o →
      table.trace? (line : Number) (column : Number) =
        some ⟨o.source, o.line, o.column + ((column : Number) - m.column),
          if m.column = (column : Number) then o.name else none⟩) ∧
    (∀ i ∈ table.looksAt (line : Number) (column : Number), i < table.length) ∧
    (∀ k, table.length < 2 ^ k →
      (table.looksAt (line : Number) (column : Number)).length ≤ k + 1) ∧
    (∀ other : MappingTable, other.length = table.length →
      (∀ i ∈ table.looksAt (line : Number) (column : Number), other[i]? = table[i]?) →
      other.find? (line : Number) (column : Number) =
        table.find? (line : Number) (column : Number)) := by
  have htraced : ∀ i m o, table.LastUpTo (line : Number) (column : Number) i m → m.origin = some o →
      table.trace? (line : Number) (column : Number) =
        some ⟨o.source, o.line, o.column + ((column : Number) - m.column),
          if m.column = (column : Number) then o.name else none⟩ := fun i m o hlast ho =>
    trace?_of_find? ((find?_eq_some_iff h hin).mpr hlast)
      (h m (List.mem_of_getElem? hlast.entry)) ho
  refine ⟨fun i m => find?_eq_some_iff h hin, find?_eq_none_iff h hin, ⟨?_, ?_⟩, htraced,
    fun i => lt_length_of_mem_looksAt, fun k => length_looksAt_le, fun other => find?_congr⟩
  · intro hnone i m hlast
    cases ho : m.origin with
    | none => rfl
    | some o =>
      rw [htraced i m o hlast ho] at hnone
      cases hnone
  · intro hidle
    cases hfind : table.find? (line : Number) (column : Number) with
    | none => exact trace?_eq_none_of_find? hfind
    | some found =>
      have ho := hidle found.1 found.2 ((find?_eq_some_iff h hin).mp hfind)
      simp [trace?, hfind, ho]

/-- Two entries at one position, a line without entries, and an entry without an origin behind it. -/
theorem search_finds_last_twice :
    let first : Mapping := ⟨0, 4, some ⟨0, 1, 2, none⟩⟩
    let second : Mapping := ⟨0, 4, some ⟨1, 3, 5, some 0⟩⟩
    let last : Mapping := ⟨2, 1, none⟩
    let table : MappingTable := [first, second, last]
    table.Integral ∧ table.inOrder = true ∧
      table.find? ((0 : Int) : Number) ((6 : Int) : Number) = some (1, second) ∧
      table.trace? ((0 : Int) : Number) ((6 : Int) : Number) = some ⟨1, 3, 7, none⟩ ∧
      table.find? ((1 : Int) : Number) ((6 : Int) : Number) = none := by
  intro first second last table
  have hintegral : table.Integral := by
    intro m hm
    simp only [table, List.mem_cons, List.not_mem_nil, or_false] at hm
    rcases hm with rfl | rfl | rfl
    · exact ⟨0, 4, rfl, rfl⟩
    · exact ⟨0, 4, rfl, rfl⟩
    · exact ⟨2, 1, rfl, rfl⟩
  have hin : table.inOrder = true := by decide +kernel
  have hlast : table.LastUpTo ((0 : Int) : Number) ((6 : Int) : Number) 1 second := by
    refine ⟨rfl, rfl, by decide +kernel, fun j b hj hb hline => ?_⟩
    have hj2 : j = 2 := by
      have hlt := (List.getElem?_eq_some_iff.mp hb).1
      simp only [table, List.length_cons, List.length_nil] at hlt
      omega
    subst hj2
    obtain rfl : last = b := Option.some.inj hb
    exact absurd hline (by decide +kernel)
  obtain ⟨hfound, -, -, htraced, -⟩ := search_finds_last hintegral hin 0 6
  obtain ⟨-, hnothing, -⟩ := search_finds_last hintegral hin 1 6
  refine ⟨hintegral, hin, (hfound 1 second).mpr hlast, ?_, hnothing.mpr (by decide +kernel)⟩
  rw [htraced 1 second _ hlast rfl]
  decide +kernel

end Provenance.MappingTable
