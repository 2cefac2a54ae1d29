/-
# Sums of fields

The number that an entry has of a kind is the sum of the fields of that kind that have been read,
those of its own segment included: for the generated column of those on its line, for the other
kinds of all of them.  The running values are these sums.  They are rounded with every field that is
added, and exact as long as the exact sums are binary64 values.

The main facts:

* `counted_concat`, `counted_of_lt` : how the sums change with a segment and with a line;
* `entries_eq_entriesAfter` : the entries that are read one after the other are made of the sums;
* `entries_numbers` : what is read from lines in terms of the sums of their fields;
* `entries_eq_exact_iff`, `entries_eq_exact_of_length_le` : when the sums are exact.
-/
import Provenance.Proofs.Mapping.Natural

namespace Provenance

open Vlq (Numeral)

namespace Lines

/-! ## Sums -/

/-- The fields of a kind that count on a line: for the generated column those on the line, and else
all of them. -/
def counted (k : MappingField) (line : Nat) (read : List (Nat × Fields Int)) : List Int :=
  (read.filter fun s => k ≠ .generatedColumn ∨ s.1 = line).filterMap fun s => s.2.get? k

variable (sum : List Int → Number)

/-- The sum of the fields of a kind that count on a line. -/
def total (k : MappingField) (line : Nat) (read : List (Nat × Fields Int)) : Number :=
  sum (counted k line read)

/-- The entry of the last segment that has been read: of each kind that the segment carries, it has
the sum. -/
def entryAt (read : List (Nat × Fields Int)) (s : Nat × Fields Int) : Mapping where
  line := (s.1 : Number)
  column := total sum .generatedColumn s.1 read
  origin := s.2.origin.map fun o =>
    ⟨total sum .source s.1 read, total sum .originLine s.1 read,
      total sum .originColumn s.1 read, o.name.map fun _ => total sum .name s.1 read⟩

/-- The entries of segments that follow those that have been read before. -/
def entriesAfter (before : List (Nat × Fields Int)) : List (Nat × Fields Int) → MappingTable
  | [] => []
  | s :: rest => entryAt sum (before ++ [s]) s :: entriesAfter (before ++ [s]) rest

/-- The values of the segments of lines. -/
def values (lines : List (List (Fields Numeral))) : List (Nat × Fields Int) :=
  (segments lines).map fun s => (s.1, s.2.map Numeral.value)

/-- The entries of lines, one for each segment. -/
def entries (lines : List (List (Fields Numeral))) : MappingTable :=
  entriesAfter sum [] (values lines)

variable {before xs : List (Nat × Fields Int)}

/-- A segment adds its fields to those that count, on its line or on any. -/
theorem counted_concat (k : MappingField) (line : Nat) (before : List (Nat × Fields Int))
    (s : Nat × Fields Int) :
    counted k line (before ++ [s]) = counted k line before ++
      if k ≠ .generatedColumn ∨ s.1 = line then (s.2.get? k).toList else [] := by
  rw [counted, List.filter_append, List.filterMap_append]
  congr 1
  split
  · rename_i h
    rw [List.filter_cons_of_pos (by simpa using h), List.filter_nil]
    cases hk : s.2.get? k <;> simp [hk]
  · rename_i h
    rw [List.filter_cons_of_neg (by simpa using h)]
    rfl

/-- A segment adds its fields to the sums. -/
theorem total_concat (k : MappingField) (line : Nat) (before : List (Nat × Fields Int))
    (f : Fields Int) :
    total Number.sum k line (before ++ [(line, f)]) =
      (f.get? k).elim (total Number.sum k line before)
        fun i => total Number.sum k line before + (i : Number) := by
  rw [total, counted_concat, if_pos (Or.inr rfl)]
  cases f.get? k with
  | none => rw [Option.toList_none, List.append_nil, Option.elim_none, total]
  | some i => exact Number.sum_concat _ i

/-- The fields of segments before a line count for it unless they are generated columns. -/
theorem counted_of_lt (k : MappingField) {line line' : Nat} (hle : ∀ s ∈ before, s.1 ≤ line)
    (hline : line < line') :
    counted k line' before = if k = .generatedColumn then [] else counted k line before := by
  split
  · rename_i hk
    rw [counted, List.filter_eq_nil_iff.mpr, List.filterMap_nil]
    intro s hs
    have hs := hle s hs
    simp only [hk, ne_eq, not_true_eq_false, false_or, decide_eq_true_eq]
    omega
  · rename_i hk
    simp only [counted, hk, ne_eq, not_false_eq_true, true_or, decide_true]

theorem get?_entryAt (read : List (Nat × Fields Int)) (s : Nat × Fields Int) (k : MappingField) :
    (entryAt sum read s).fields.get? k = (s.2.get? k).map fun _ => total sum k s.1 read := by
  obtain ⟨line, c, _ | ⟨src, l, oc, _ | n⟩⟩ := s <;> cases k <;> rfl

end Lines

namespace MappingTable

namespace Running

open Lines (total entryAt entriesAfter)

variable {r : Running} {before xs : List (Nat × Fields Int)}

/-! ## Running values are sums -/

/-- Running values after segments: they are on the line reached, and are the sums for it. -/
structure Follows (r : Running) (before : List (Nat × Fields Int)) : Prop where
  le : ∀ s ∈ before, s.1 ≤ r.line
  get : ∀ k, r.get k = total Number.sum k r.line before

theorem follows_start : Follows {} [] where
  le := by simp
  get k := by cases k <;> rfl

theorem Follows.enter (h : r.Follows before) {line : Nat} (hline : r.line ≤ line) :
    (r.enter line).Follows before where
  le s hs := by
    rw [line_enter]
    exact Nat.le_trans (h.le s hs) hline
  get k := by
    rw [line_enter, get_enter]
    rcases Nat.eq_or_lt_of_le hline with rfl | hlt
    · rw [if_neg fun hk => hk.2 rfl]
      exact h.get k
    · rw [total, Lines.counted_of_lt k h.le hlt, h.get k]
      by_cases hk : k = .generatedColumn
      · rw [if_pos ⟨hk, Nat.ne_of_gt hlt⟩, if_pos hk]
        rfl
      · rw [if_neg fun h => hk h.1, if_neg hk, total]

theorem Follows.add (h : r.Follows before) (f : Fields Int) :
    (r.add (f.map fun i : Int => (i : Number))).Follows (before ++ [(r.line, f)]) where
  le s hs := by
    rw [line_add]
    rcases List.mem_append.mp hs with hs | hs
    · exact h.le s hs
    · rw [List.mem_singleton.mp hs]
  get k := by
    rw [line_add, get_add, Fields.get?_map, Lines.total_concat, h.get k]
    cases f.get? k <;> rfl

/-- The entry that is made of running values that are sums. -/
theorem Follows.entry_eq (h : r.Follows before) (f : Fields Int) :
    r.entry (f.map fun i : Int => (i : Number)) = entryAt Number.sum before (r.line, f) := by
  obtain ⟨c, o⟩ := f
  have hcolumn : r.column = _ := h.get .generatedColumn
  have hsource : r.source = _ := h.get .source
  have hline : r.originLine = _ := h.get .originLine
  have horiginColumn : r.originColumn = _ := h.get .originColumn
  have hname : r.name = _ := h.get .name
  simp only [entry, entryAt, Fields.map, hcolumn, hsource, hline, horiginColumn, hname,
    Option.map_map, Function.comp_def]

/-- **The entries of segments that are read one after the other are made of the sums.** -/
theorem entries_eq_entriesAfter (h : r.Follows before) (hline : ∀ s ∈ xs, r.line ≤ s.1)
    (hxs : xs.Pairwise fun s s' => s.1 ≤ s'.1) :
    r.entries (xs.map fun s => (s.1, s.2.map fun i : Int => (i : Number))) =
      entriesAfter Number.sum before xs := by
  induction xs generalizing r before with
  | nil => rfl
  | cons s rest ih =>
    obtain ⟨hs, -⟩ := List.forall_mem_cons.mp hline
    obtain ⟨hrest, hpairwise⟩ := List.pairwise_cons.mp hxs
    have hnext := (h.enter hs).add s.2
    have hentry := hnext.entry_eq s.2
    rw [line_add, line_enter] at hentry
    rw [line_enter] at hnext
    rw [List.map_cons, entries, entriesAfter, hentry, ih hnext ?_ hpairwise]
    intro s' hs'
    rw [line_add, line_enter]
    exact hrest s' hs'

end Running

end MappingTable

namespace Lines

open MappingTable (Running)

/-! ## Entries of lines -/

/-- The segments of lines are in the order of their lines. -/
theorem pairwise_segments {α : Type} (lines : List (List α)) :
    (segments lines).Pairwise fun s s' => s.1 ≤ s'.1 := by
  have hnumbers : lines.zipIdx.Pairwise fun a b => a.2 ≤ b.2 := by
    rw [← List.pairwise_map (R := (· ≤ ·)) (f := Prod.snd), List.zipIdx_map_snd]
    exact List.pairwise_le_range' 1
  refine List.pairwise_flatMap.mpr ⟨fun a _ => ?_, hnumbers.imp fun {a b} hab s hs s' hs' => ?_⟩
  · exact List.pairwise_map.mpr (List.pairwise_of_forall fun _ _ => Nat.le_refl _)
  · obtain ⟨_, -, rfl⟩ := List.mem_map.mp hs
    obtain ⟨_, -, rfl⟩ := List.mem_map.mp hs'
    exact hab

/-- **The entries that are read from lines are made of the sums of their fields.** -/
theorem entries_numbers (lines : List (List (Fields Numeral))) :
    Running.entries {} (numbers lines) = entries Number.sum lines := by
  have hnumbers : numbers lines =
      (values lines).map fun s => (s.1, s.2.map fun i : Int => (i : Number)) := by
    rw [numbers, values, List.map_map]
    congr 1
    funext s
    simp only [Function.comp_apply, Fields.map_map]
    rfl
  rw [hnumbers, entries]
  apply Running.entries_eq_entriesAfter Running.follows_start
  · exact fun _ _ => Nat.zero_le _
  · rw [values, List.pairwise_map]
    exact pairwise_segments lines

variable {sum : List Int → Number} {before xs : List (Nat × Fields Int)}
  {lines : List (List (Fields Numeral))} {m : Mapping}

/-- Every entry is that of a segment. -/
theorem exists_of_mem_entriesAfter (h : m ∈ entriesAfter sum before xs) :
    ∃ s ∈ xs, ∃ read, read <+: before ++ xs ∧ m = entryAt sum read s := by
  induction xs generalizing before with
  | nil => cases h
  | cons s rest ih =>
    rcases List.mem_cons.mp h with rfl | h
    · exact ⟨s, List.mem_cons_self, before ++ [s], ⟨rest, (List.append_cons ..).symm⟩, rfl⟩
    · obtain ⟨s', hs', read, hread, hm⟩ := ih h
      exact ⟨s', List.mem_cons_of_mem s hs', read, by rwa [List.append_cons], hm⟩

/-- The fields of lines are steps. -/
theorem natAbs_lt_of_mem_values {s : Nat × Fields Int} (hs : s ∈ values lines) {k : MappingField}
    {i : Int} (hi : s.2.get? k = some i) : i.natAbs < 2 ^ 31 := by
  obtain ⟨own, -, rfl⟩ := List.mem_map.mp hs
  rw [Fields.get?_map] at hi
  obtain ⟨n, -, rfl⟩ := Option.map_eq_some_iff.mp hi
  exact Nat.lt_succ_of_le n.natAbs_value_le

/-- A number of an entry of lines is the sum of steps, at most one for each segment. -/
theorem exists_sum_of_mem_entries (h : m ∈ entries sum lines) {x : Number} (hx : x ∈ m.fields.toList) :
    ∃ steps : List Int, (∀ i ∈ steps, i.natAbs < 2 ^ 31) ∧
      steps.length ≤ (segments lines).length ∧ x = sum steps := by
  obtain ⟨s, -, read, hread, rfl⟩ := exists_of_mem_entriesAfter h
  rw [List.nil_append] at hread
  obtain ⟨k, hk⟩ := Fields.mem_toList_iff.mp hx
  rw [get?_entryAt] at hk
  obtain ⟨_, -, rfl⟩ := Option.map_eq_some_iff.mp hk
  refine ⟨counted k s.1 read, fun i hi => ?_, ?_, rfl⟩
  · obtain ⟨own, hown, hi⟩ := List.mem_filterMap.mp hi
    exact natAbs_lt_of_mem_values (hread.subset (List.mem_filter.mp hown).1) hi
  · calc (counted k s.1 read).length ≤ read.length :=
          Nat.le_trans (List.length_filterMap_le _ _) (List.length_filter_le _ _)
      _ ≤ (values lines).length := hread.length_le
      _ = (segments lines).length := List.length_map _

/-- The numbers of the entries of lines are integers. -/
theorem exists_int_of_mem_entries (h : m ∈ entries Number.sum lines) :
    ∀ x ∈ m.fields.toList, ∃ i : Int, x = (i : Number) := by
  intro x hx
  obtain ⟨steps, hsteps, -, rfl⟩ := exists_sum_of_mem_entries h hx
  obtain ⟨k, -, -, hk⟩ := Number.settled_sum hsteps
  exact ⟨k, hk⟩

/-- The entries of lines have naturals only if none of their numbers is negative. -/
theorem natural_iff (h : m ∈ entries Number.sum lines) :
    m.Natural ↔ ∀ x ∈ m.fields.toList, 0 ≤ x := by
  refine Mapping.natural_iff_nonneg ?_ (exists_int_of_mem_entries h)
  obtain ⟨s, -, read, -, rfl⟩ := exists_of_mem_entriesAfter h
  exact ⟨s.1, rfl⟩

theorem natural_of_nonneg (h : ∀ m ∈ entries Number.sum lines, ∀ x ∈ m.fields.toList, 0 ≤ x) :
    ∀ m ∈ entries Number.sum lines, m.Natural := fun m hm => (natural_iff hm).mpr (h m hm)

/-! ## Exact sums -/

/-- As long as the exact sums are binary64 values, the sums are exact. -/
theorem entriesAfter_eq_exact
    (hbefore : ∀ k line, total Number.sum k line before = total Number.exactSum k line before)
    (h : ∀ m ∈ entriesAfter Number.exactSum before xs, ∀ x ∈ m.fields.toList, x.rounded = x) :
    entriesAfter Number.sum before xs = entriesAfter Number.exactSum before xs := by
  induction xs generalizing before with
  | nil => rfl
  | cons s rest ih =>
    obtain ⟨hs, hrest⟩ := List.forall_mem_cons.mp h
    have hafter : ∀ k line,
        total Number.sum k line (before ++ [s]) = total Number.exactSum k line (before ++ [s]) := by
      intro k line
      have hk := hbefore k line
      unfold total at hk ⊢
      rw [counted_concat]
      split
      · rename_i hcounts
        cases hi : s.2.get? k with
        | none =>
          rw [Option.toList_none, List.append_nil]
          exact hk
        | some i =>
          -- the sum that is reached is a number of the entry
          have hline : counted k line (before ++ [s]) = counted k s.1 (before ++ [s]) := by
            rcases hcounts with hk | rfl
            · simp only [counted, ne_eq, hk, not_false_eq_true, true_or]
            · rfl
          have hmem : total Number.exactSum k s.1 (before ++ [s]) ∈
              (entryAt Number.exactSum (before ++ [s]) s).fields.toList :=
            Fields.mem_toList_iff.mpr ⟨k, by rw [get?_entryAt, hi, Option.map_some]⟩
          have hround := hs _ hmem
          rw [total, ← hline, counted_concat, if_pos hcounts, hi, Option.toList_some] at hround
          rw [Option.toList_some, Number.sum_concat, hk, Number.exactSum_concat, hround]
      · rw [List.append_nil]
        exact hk
    have hentry : entryAt Number.sum (before ++ [s]) s = entryAt Number.exactSum (before ++ [s]) s := by
      simp only [entryAt, hafter]
    rw [entriesAfter, entriesAfter, hentry, ih hafter hrest]

/-- **When the sums are exact**: as long as the exact sums are binary64 values. -/
theorem entries_eq_exact_iff (lines : List (List (Fields Numeral))) :
    entries Number.sum lines = entries Number.exactSum lines ↔
      ∀ m ∈ entries Number.exactSum lines, ∀ x ∈ m.fields.toList, x.rounded = x := by
  constructor
  · intro h m hm x hx
    rw [← h] at hm
    obtain ⟨steps, hsteps, -, rfl⟩ := exists_sum_of_mem_entries hm hx
    exact (Number.settled_sum hsteps).rounded
  · exact entriesAfter_eq_exact fun _ _ => rfl

/-- The sums of up to 2^22 segments are exact. -/
theorem entries_eq_exact_of_length_le (h : (segments lines).length ≤ 2 ^ 22) :
    entries Number.sum lines = entries Number.exactSum lines := by
  rw [entries_eq_exact_iff]
  intro m hm x hx
  obtain ⟨steps, hsteps, hlength, rfl⟩ := exists_sum_of_mem_entries hm hx
  have hsum := Number.natAbs_sum_le hsteps
  refine Number.rounded_intCast _ ?_
  calc steps.sum.natAbs ≤ steps.length * 2 ^ 31 := hsum
    _ ≤ 2 ^ 22 * 2 ^ 31 := Nat.mul_le_mul_right _ (Nat.le_trans hlength h)
    _ = Number.exactLimit := by decide

end Lines

end Provenance
