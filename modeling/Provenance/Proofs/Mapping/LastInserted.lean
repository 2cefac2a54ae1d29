/-
# The last inserted entry

In a normal form a position is looked up by binary search.  What it is mapped to can be said of the
entries as they were inserted: it is what the last inserted of those with the greatest column up to the
position maps it to.  The one exception is a range that starts at a negative column: where an entry
without an origin ended it at column 0, it goes on.

The main facts:

* `lastInserted?_eq_cover?` : the entry that covers a place, by filtering alone;
* `trace?_normalForm_of_integral`, `not_overhangs` : what a normal form maps a position to;
* `normalForm_integral` : what a normal form of entries at integers is.
-/
import Provenance.Proofs.Mapping.Integral

namespace Provenance

/-! ## Integers up to a number -/

/-- Of the integers within a bound the same are at most a number as are at most some integer. -/
theorem Number.exists_floor (bound : Nat) (x : Number) : ∃ c : Int,
    (∀ i : Int, i.natAbs ≤ bound → ((i : Number) ≤ x ↔ (i : Number) ≤ (c : Number))) ∧
      (0 ≤ c → (c : Number) ≤ x) := by
  -- below the bound where none is at most the number
  have hbelow : (∀ i : Int, ¬ (i : Number) ≤ x) → ∃ c : Int,
      (∀ i : Int, i.natAbs ≤ bound → ((i : Number) ≤ x ↔ (i : Number) ≤ (c : Number))) ∧
        (0 ≤ c → (c : Number) ≤ x) := by
    refine fun hnone => ⟨-(bound + 1 : Int), fun i hi => iff_of_false (hnone i) ?_, fun h0 => by omega⟩
    rw [intCast_le]
    omega
  cases x with
  | finite q =>
    have hfloor : ∀ i : Int, (i : Number) ≤ finite q ↔ (i : Number) ≤ (q.floor : Number) := by
      intro i
      rw [intCast_le, Rat.le_floor_iff]
      exact decide_eq_true_iff
    exact ⟨q.floor, fun i _ => hfloor i, fun _ => (hfloor _).mpr (intCast_le.mpr (Int.le_refl _))⟩
  | posInf =>
    refine ⟨bound, fun i hi => iff_of_true rfl ?_, fun _ => rfl⟩
    rw [intCast_le]
    omega
  | negInf => exact hbelow fun i => Bool.false_ne_true
  | nan => exact hbelow fun i => Bool.false_ne_true

namespace MappingTable

open Text (Position)

variable {entries table : MappingTable} {m : Mapping} {k : Nat} {line column x y : Number}

/-! ## Looking up in entries as they are -/

/-- The entries on a line up to a column. -/
def upTo (entries : MappingTable) (line column : Number) : MappingTable :=
  entries.filter fun m => m.line = line && m.column ≤ column

/-- The entries with the greatest column. -/
def rightmost (entries : MappingTable) : MappingTable :=
  entries.filter fun m => entries.all fun b => b.column ≤ m.column

/-- Of the entries with the greatest column on a line up to a column, the last inserted. -/
def lastInserted? (entries : MappingTable) (line column : Number) : Option Mapping :=
  (entries.upTo line column).rightmost.getLast?

/-- What the last inserted of the entries with the greatest column up to a position maps it to. -/
def traceInserted? (entries : MappingTable) (line column : Number) : Option Location :=
  (entries.lastInserted? line column).bind fun m =>
    m.origin.map (Location.advance · (column - m.column))

/-- The last inserted entry, if it has an origin. -/
def lastMapped? (entries : MappingTable) (line column : Number) : Option Mapping :=
  (entries.lastInserted? line column).filter (·.origin.isSome)

/-- The entry that binary search finds, if it has an origin. -/
def found? (table : MappingTable) (line column : Number) : Option Mapping :=
  ((table.find? line column).map Prod.snd).filter (·.origin.isSome)

/-- A range from a negative column was ended at column 0 of a line, and no range starts from there up to
the column in question. -/
def Overhangs (entries : MappingTable) (line column : Number) : Prop :=
  0 ≤ column ∧ (entries.traceInserted? line (-1)).isSome ∧
    ∀ c : Int, 0 ≤ c → (c : Number) ≤ column → entries.traceInserted? line (c : Number) = none

theorem mem_of_lastInserted? (h : table.lastInserted? line column = some m) :
    m ∈ table ∧ m.line = line ∧ m.column ≤ column := by
  have hupto := (List.mem_filter.mp (List.mem_of_getLast? h)).1
  obtain ⟨hmem, hreaches⟩ := List.mem_filter.mp hupto
  rw [Bool.and_eq_true, decide_eq_true_eq, decide_eq_true_eq] at hreaches
  exact ⟨hmem, hreaches⟩

theorem mem_of_lastMapped? (h : table.lastMapped? line column = some m) :
    m ∈ table ∧ m.line = line ∧ m.column ≤ column := by
  obtain ⟨h, -⟩ := Option.filter_eq_some_iff.mp h
  exact mem_of_lastInserted? h

theorem mem_of_found? (h : table.found? line column = some m) : m ∈ table ∧ m.line = line := by
  obtain ⟨h, -⟩ := Option.filter_eq_some_iff.mp h
  obtain ⟨⟨i, own⟩, hfind, rfl⟩ := Option.map_eq_some_iff.mp h
  obtain ⟨hline, hget⟩ := find?_line hfind
  exact ⟨List.mem_of_getElem? hget, hline⟩

theorem bind_filter_isSome (found : Option Mapping) (column : Number) :
    ((found.filter (·.origin.isSome)).bind fun m =>
        m.origin.map (Location.advance · (column - m.column))) =
      found.bind fun m => m.origin.map (Location.advance · (column - m.column)) := by
  cases found with
  | none => rfl
  | some m =>
    rw [Option.filter_some]
    cases horigin : m.origin with
    | none => simp [horigin]
    | some o => simp

theorem trace?_eq_found? (table : MappingTable) (line column : Number) :
    table.trace? line column = (table.found? line column).bind fun m =>
      m.origin.map (Location.advance · (column - m.column)) := by
  rw [found?, bind_filter_isSome, trace?]
  cases table.find? line column with
  | none => rfl
  | some e => cases horigin : e.2.origin <;> simp [horigin]

theorem traceInserted?_eq_lastMapped? (entries : MappingTable) (line column : Number) :
    entries.traceInserted? line column = (entries.lastMapped? line column).bind fun m =>
      m.origin.map (Location.advance · (column - m.column)) :=
  (bind_filter_isSome _ column).symm

theorem isSome_traceInserted? (entries : MappingTable) (line column : Number) :
    (entries.traceInserted? line column).isSome = (entries.lastMapped? line column).isSome := by
  rw [traceInserted?_eq_lastMapped?]
  cases h : entries.lastMapped? line column with
  | none => rfl
  | some m => rw [Option.bind_some, Option.isSome_map, (Option.filter_eq_some_iff.mp h).2]; rfl

theorem traceInserted?_eq_none_iff :
    entries.traceInserted? line column = none ↔ entries.lastMapped? line column = none := by
  rw [← Option.not_isSome_iff_eq_none, isSome_traceInserted?, Option.not_isSome_iff_eq_none]

/-- **The covering entry, by filtering alone.** -/
theorem lastInserted?_eq_cover? (hp : table.Placed) (p : Position) :
    table.lastInserted? (p.line : Number) (p.column : Number) = table.cover? p := by
  have hcovers : ∀ m ∈ table, (m.line = (p.line : Number) && m.column ≤ (p.column : Number) : Bool) =
      m.place.covers p := by
    intro m hm
    rw [Bool.eq_iff_iff, Position.covers_iff, (hp m hm).line, (hp m hm).column]
    simp
  unfold lastInserted? upTo rightmost
  rw [List.filter_congr hcovers]
  cases hcover : table.cover? p with
  | none =>
    have hnone : (table.filter fun m => m.place.covers p) = [] := by
      rw [List.filter_eq_nil_iff]
      intro m hm hc
      obtain ⟨z, hz, -⟩ : ∃ z ∈ table.cover? p, m.place.column ≤ z.place.column :=
        exists_latest hm hc
      rw [hcover] at hz
      cases hz
    simp [hnone]
  | some m =>
    obtain ⟨hm, hc⟩ := mem_of_latest hcover
    have hgreatest : ∀ b ∈ table, b.place.covers p = true → b.place.column ≤ m.place.column := by
      intro b hb hcb
      have hle := key_le_of_latest hcover hb hcb
      exact hle
    rw [← getLast?_filter_of_latest hcover, List.filter_filter]
    congr 1
    refine List.filter_congr fun b hb => ?_
    rw [Bool.eq_iff_iff, Bool.and_eq_true, Bool.and_eq_true, List.all_eq_true, and_comm, beq_iff_eq]
    refine and_congr_right fun hcb => ?_
    constructor
    · intro hall
      have hle := of_decide_eq_true (hall m (List.mem_filter.mpr ⟨hm, hc⟩))
      rw [(hp m hm).column, (hp b hb).column, Number.natCast_le] at hle
      exact Nat.le_antisymm (hgreatest b hb hcb) hle
    · intro heq a ha
      obtain ⟨ha, hca⟩ := List.mem_filter.mp ha
      rw [decide_eq_true_eq, (hp a ha).column, (hp b hb).column, Number.natCast_le, heq]
      exact hgreatest a ha hca

theorem lastMapped?_eq_mappedBy? (hp : table.Placed) (p : Position) :
    table.lastMapped? (p.line : Number) (p.column : Number) = table.mappedBy? p := by
  rw [lastMapped?, lastInserted?_eq_cover? hp]
  rfl

theorem found?_eq_mappedBy? (hp : table.Placed) (hs : table.Sorted) (p : Position) :
    table.found? (p.line : Number) (p.column : Number) = table.mappedBy? p := by
  rw [found?, find?_eq_cover? hp hs]
  rfl

/-! ## Raised entries -/

theorem upTo_raise (h : table.Integral) (k : Nat) (line column : Int) :
    (table.raise k).upTo ((line + k : Int) : Number) ((column + k : Int) : Number) =
      (table.upTo (line : Number) (column : Number)).raise k := by
  unfold upTo raise
  rw [List.filter_map]
  congr 1
  refine List.filter_congr fun m hm => ?_
  obtain ⟨l, c, hl, hc⟩ := h m hm
  simp [Mapping.line_raise hl, Mapping.column_raise hc, hl, hc]

theorem rightmost_raise (h : table.Integral) (k : Nat) :
    (table.raise k).rightmost = table.rightmost.raise k := by
  unfold rightmost raise
  rw [List.filter_map]
  congr 1
  refine List.filter_congr fun m hm => ?_
  obtain ⟨l, c, -, hc⟩ := h m hm
  rw [Function.comp_apply, List.all_map, Bool.eq_iff_iff, List.all_eq_true, List.all_eq_true]
  refine forall₂_congr fun b hb => ?_
  obtain ⟨l', c', -, hc'⟩ := h b hb
  simp [Mapping.column_raise hc, Mapping.column_raise hc', hc, hc']

theorem lastInserted?_raise (h : table.Integral) (k : Nat) (line column : Int) :
    (table.raise k).lastInserted? ((line + k : Int) : Number) ((column + k : Int) : Number) =
      (table.lastInserted? (line : Number) (column : Number)).map (Mapping.raise k) := by
  have hsub : table.upTo (line : Number) (column : Number) ⊆ table :=
    fun m hm => (List.mem_filter.mp hm).1
  rw [lastInserted?, upTo_raise h, rightmost_raise (h.subset hsub), raise, List.getLast?_map]
  rfl

theorem lastMapped?_raise (h : table.Integral) (k : Nat) (line column : Int) :
    (table.raise k).lastMapped? ((line + k : Int) : Number) ((column + k : Int) : Number) =
      (table.lastMapped? (line : Number) (column : Number)).map (Mapping.raise k) := by
  rw [lastMapped?, lastInserted?_raise h, Option.filter_map]
  rfl

theorem found?_raise (h : table.Integral) (k : Nat) (line column : Int) :
    (table.raise k).found? ((line + k : Int) : Number) ((column + k : Int) : Number) =
      (table.found? (line : Number) (column : Number)).map (Mapping.raise k) := by
  have hpoint : partitionPoint (reaches ((line + k : Int) : Number) ((column + k : Int) : Number))
      (table.raise k) = partitionPoint (reaches (line : Number) (column : Number)) table := by
    refine partitionPoint_map _ fun m hm => ?_
    obtain ⟨l, c, hl, hc⟩ := h m hm
    simp [reaches, Mapping.line_raise hl, Mapping.column_raise hc, hl, hc]
  have hfind : (table.raise k).find? ((line + k : Int) : Number) ((column + k : Int) : Number) =
      (table.find? (line : Number) (column : Number)).map fun e => (e.1, e.2.raise k) := by
    unfold find?
    rw [hpoint]
    cases partitionPoint (reaches (line : Number) (column : Number)) table with
    | zero => rfl
    | succ i =>
      simp only [raise, List.getElem?_map]
      cases hi : table[i]? with
      | none => rfl
      | some m =>
        obtain ⟨l, c, hl, -⟩ := h m (List.mem_of_getElem? hi)
        by_cases hline : l = line
        · simp [Mapping.line_raise hl, hl, hline]
        · simp [Mapping.line_raise hl, hl, hline]
  rw [found?, found?, hfind, Option.map_map, Option.filter_map, Option.filter_map, Option.map_map]
  rfl

/-- Entries at integers are the same if they are when raised. -/
theorem option_eq_of_raise (k : Nat) {a b : Option Mapping} (ha : ∀ m ∈ a, m.Integral)
    (hb : ∀ m ∈ b, m.Integral) (h : a.map (Mapping.raise k) = b.map (Mapping.raise k)) : a = b := by
  cases a with
  | none => exact (Option.map_eq_none_iff.mp h.symm).symm
  | some m =>
    obtain ⟨n, rfl, hraise⟩ := Option.map_eq_some_iff.mp h.symm
    rw [Mapping.eq_of_raise (ha m rfl) (hb n rfl) hraise.symm]

/-- The last inserted entry, by the place that its position is raised to. -/
theorem map_raise_lastMapped? (h : entries.Integral) (hraised : entries.RaisedBy k) {l c : Nat}
    {line column : Int} (hline : line + k = l) (hcolumn : column + k = c) :
    (entries.lastMapped? (line : Number) (column : Number)).map (Mapping.raise k) =
      (normalForm (entries.raise k)).mappedBy? ⟨l, c⟩ := by
  rw [← lastMapped?_raise h, hline, hcolumn, Number.intCast_natCast, Number.intCast_natCast,
    mappedBy?_normalForm hraised.placed]
  exact lastMapped?_eq_mappedBy? hraised.placed ⟨l, c⟩

/-- What binary search finds in a normal form, by the place that the position is raised to. -/
theorem map_raise_found? (h : entries.Integral) (hraised : entries.RaisedBy k) {l c : Nat}
    {line column : Int} (hline : line + k = l) (hcolumn : column + k = c) :
    ((normalForm entries).found? (line : Number) (column : Number)).map (Mapping.raise k) =
      (kept k (normalForm (entries.raise k))).mappedBy? ⟨l, c⟩ := by
  have hplaced := (normalForm_placed hraised.placed).kept k
  have hincreasing := (normalForm_increasing hraised.placed).kept k
  rw [← found?_raise h.normalForm, normalForm_raise h hraised, hline, hcolumn, Number.intCast_natCast,
    Number.intCast_natCast]
  exact found?_eq_mappedBy? hplaced (hincreasing.sorted hplaced) ⟨l, c⟩

/-- A range overhangs where its end was dropped. -/
theorem overhangs_iff_dropped (h : entries.Integral) (hraised : entries.RaisedBy (k + 1)) {l c : Nat}
    {line column : Int} (hline : line + (k + 1 : Nat) = l) (hcolumn : column + (k + 1 : Nat) = c) :
    entries.Overhangs (line : Number) (column : Number) ↔
      ∃ b, (normalForm (entries.raise (k + 1))).cover? ⟨l, c⟩ = some b ∧
        isKept (k + 1) b = false := by
  have hlast : ∀ (i : Int) (n : Nat), i + (k + 1 : Nat) = n →
      (entries.lastMapped? (line : Number) (i : Number)).map (Mapping.raise (k + 1)) =
        (normalForm (entries.raise (k + 1))).mappedBy? ⟨l, n⟩ :=
    fun i n hn => map_raise_lastMapped? h hraised hline hn
  rw [isDropped_iff (normalForm_placed hraised.placed) (normalForm_increasing hraised.placed)
    (normalForm_closed _), Overhangs, isSome_traceInserted?, ← hlast (-1) k (by omega),
    Option.isSome_map]
  refine and_congr (Number.intCast_le.trans (by simp only; omega)) (and_congr_right fun _ => ?_)
  constructor
  · intro hnone n hlt hle
    have hle : n ≤ c := hle
    rw [← hlast (n - (k + 1 : Nat)) n (by omega), Option.map_eq_none_iff,
      ← traceInserted?_eq_none_iff]
    exact hnone _ (by omega) (Number.intCast_le.mpr (by omega))
  · intro hnone i hi hle
    have hle := Number.intCast_le.mp hle
    obtain ⟨n, hn⟩ : ∃ n : Nat, i + (k + 1 : Nat) = n := ⟨_, (Int.toNat_of_nonneg (by omega)).symm⟩
    rw [traceInserted?_eq_none_iff, ← Option.map_eq_none_iff, hlast i n hn]
    exact hnone n (by omega) (by simp only; omega)

/-- What binary search finds in a normal form, at integers: the last inserted entry, unless a range
overhangs. -/
theorem found?_normalForm_intCast (h : entries.Integral) (line column : Int) :
    (¬ entries.Overhangs (line : Number) (column : Number) →
      (normalForm entries).found? (line : Number) (column : Number) =
        entries.lastMapped? (line : Number) (column : Number)) ∧
    (entries.Overhangs (line : Number) (column : Number) →
      ((normalForm entries).found? (line : Number) (column : Number)).isSome) := by
  obtain ⟨least, hleast⟩ := h.raisedBy
  obtain ⟨k, hk⟩ : ∃ k, k = max least (line.natAbs + column.natAbs) := ⟨_, rfl⟩
  have hraised : entries.RaisedBy (k + 1) := hleast (k + 1) (by omega)
  obtain ⟨l, hl⟩ : ∃ l : Nat, line + (k + 1 : Nat) = l := ⟨_, (Int.toNat_of_nonneg (by omega)).symm⟩
  obtain ⟨c, hc⟩ : ∃ c : Nat, column + (k + 1 : Nat) = c := ⟨_, (Int.toNat_of_nonneg (by omega)).symm⟩
  have hplaced := normalForm_placed hraised.placed
  have hincreasing := normalForm_increasing hraised.placed
  have hfound := map_raise_found? h hraised hl hc
  rw [overhangs_iff_dropped h hraised hl hc]
  constructor
  · intro hnone
    refine option_eq_of_raise (k + 1) (fun m hm => h.normalForm m (mem_of_found? hm).1)
      (fun m hm => h m (mem_of_lastMapped? hm).1) ?_
    rw [hfound, mappedBy?_kept hplaced hincreasing hnone, map_raise_lastMapped? h hraised hl hc]
  · rintro ⟨b, hcover, hdropped⟩
    have hsome := isSome_mappedBy?_of_dropped hplaced hincreasing (normalForm_closed _) hcover hdropped
    rwa [← hfound, Option.isSome_map] at hsome

/-! ## Positions between the integers -/

theorem upTo_congr (h : ∀ m ∈ entries, m.column ≤ x ↔ m.column ≤ y) :
    entries.upTo line x = entries.upTo line y :=
  List.filter_congr fun m hm => by rw [decide_eq_decide.mpr (h m hm)]

theorem lastMapped?_congr (h : ∀ m ∈ entries, m.column ≤ x ↔ m.column ≤ y) :
    entries.lastMapped? line x = entries.lastMapped? line y := by
  rw [lastMapped?, lastMapped?, lastInserted?, lastInserted?, upTo_congr h]

theorem found?_congr (h : ∀ m ∈ table, m.column ≤ x ↔ m.column ≤ y) :
    table.found? line x = table.found? line y := by
  have hpoint : partitionPoint (reaches line x) (table.map id) = partitionPoint (reaches line y) table :=
    partitionPoint_map _ fun m hm => by rw [id, reaches, reaches, decide_eq_decide.mpr (h m hm)]
  rw [List.map_id] at hpoint
  rw [found?, found?, find?, find?, hpoint]

/-- Up to every column stand the same entries at integers as up to some integer. -/
theorem Integral.exists_floor (h : entries.Integral) (column : Number) : ∃ c : Int,
    (∀ m ∈ entries, m.column ≤ column ↔ m.column ≤ (c : Number)) ∧
      (0 ≤ column ↔ (0 : Number) ≤ (c : Number)) ∧ (0 ≤ c → (c : Number) ≤ column) := by
  obtain ⟨bound, hbound⟩ := h.exists_bound
  obtain ⟨c, hc, hle⟩ := Number.exists_floor bound column
  refine ⟨c, fun m hm => ?_, (hc 0 (Nat.zero_le _)), hle⟩
  obtain ⟨-, i, -, hi, -, hlt⟩ := hbound m hm
  rw [hi]
  exact hc i (Nat.le_of_lt hlt)

/-- A range overhangs up to the last integer. -/
theorem overhangs_intCast {c : Int} (hcolumns : ∀ m ∈ entries, m.column ≤ x ↔ m.column ≤ (c : Number))
    (hintegral : entries.Integral) (hzero : 0 ≤ x ↔ (0 : Number) ≤ (c : Number))
    (hle : 0 ≤ c → (c : Number) ≤ x) :
    entries.Overhangs line x ↔ entries.Overhangs line (c : Number) := by
  refine and_congr hzero (and_congr_right fun _ => ⟨fun hnone i hi hic => ?_, fun hnone i hi hix => ?_⟩)
  · have hic := Number.intCast_le.mp hic
    exact hnone i hi (Number.intCast_le_of_le hic (hle (by omega)))
  · -- behind that integer nothing starts
    have hc : 0 ≤ c := Number.intCast_le.mp (hzero.mp (Number.intCast_le_of_le hi hix))
    have hmin : entries.lastMapped? line (i : Number) = entries.lastMapped? line (min i c : Int) := by
      refine lastMapped?_congr fun m hm => ?_
      obtain ⟨-, d, -, hd⟩ := hintegral m hm
      have hdx := hcolumns m hm
      rw [hd, Number.intCast_le] at hdx
      rw [hd, Number.intCast_le, Number.intCast_le]
      refine ⟨fun hdi => ?_, fun hdm => by omega⟩
      have := hdx.mp (Number.intCast_le_of_le hdi hix)
      omega
    rw [traceInserted?_eq_none_iff, hmin, ← traceInserted?_eq_none_iff]
    exact hnone _ (by omega) (Number.intCast_le.mpr (by omega))

/-- What binary search finds in a normal form: the last inserted entry, unless a range overhangs. -/
theorem found?_normalForm (h : entries.Integral) (line column : Number) :
    (¬ entries.Overhangs line column →
      (normalForm entries).found? line column = entries.lastMapped? line column) ∧
    (entries.Overhangs line column → ((normalForm entries).found? line column).isSome ∧
      entries.lastMapped? line column = none) := by
  by_cases hline : ∃ l : Int, line = (l : Number)
  · obtain ⟨l, rfl⟩ := hline
    obtain ⟨c, hcolumns, hzero, hle⟩ := h.exists_floor column
    rw [overhangs_intCast hcolumns h hzero hle,
      found?_congr fun m hm => hcolumns m (normalForm_subset hm), lastMapped?_congr hcolumns]
    obtain ⟨hsame, hsome⟩ := found?_normalForm_intCast h l c
    refine ⟨hsame, fun hoverhangs => ⟨hsome hoverhangs, ?_⟩⟩
    obtain ⟨h0, -, hnone⟩ := hoverhangs
    rw [← traceInserted?_eq_none_iff]
    exact hnone c (Number.intCast_le.mp h0) (Number.intCast_le.mpr (Int.le_refl _))
  · -- no entry stands on such a line
    have hnowhere : ∀ m ∈ entries, m.line ≠ line := by
      intro m hm heq
      obtain ⟨l, -, hl, -⟩ := h m hm
      exact hline ⟨l, heq.symm.trans hl⟩
    have hlast : ∀ column, entries.lastMapped? line column = none := by
      intro column
      rw [Option.eq_none_iff_forall_not_mem]
      intro m hm
      obtain ⟨hmem, heq, -⟩ := mem_of_lastMapped? hm
      exact hnowhere m hmem heq
    have hfound : (normalForm entries).found? line column = none := by
      rw [Option.eq_none_iff_forall_not_mem]
      intro m hm
      obtain ⟨hmem, heq⟩ := mem_of_found? hm
      exact hnowhere m (normalForm_subset hmem) heq
    refine ⟨fun _ => hfound.trans (hlast column).symm, fun hoverhangs => ?_⟩
    have hsome := hoverhangs.2.1
    rw [isSome_traceInserted?, hlast] at hsome
    cases hsome

/-- **What a normal form of entries at integers maps a position to.**  It is what the last inserted of
the entries with the greatest column up to the position maps it to, unless a range overhangs there. -/
theorem trace?_normalForm_of_integral (h : entries.Integral) (line column : Number) :
    (normalForm entries).trace? line column = entries.traceInserted? line column ↔
      ¬ entries.Overhangs line column := by
  obtain ⟨hsame, hsome⟩ := found?_normalForm h line column
  constructor
  · intro heq hoverhangs
    obtain ⟨hfound, hlast⟩ := hsome hoverhangs
    rw [traceInserted?_eq_none_iff.mpr hlast] at heq
    obtain ⟨m, hm⟩ := Option.isSome_iff_exists.mp hfound
    rw [trace?_eq_found?, hm, Option.bind_some, Option.map_eq_none_iff] at heq
    have hmapped := (Option.filter_eq_some_iff.mp hm).2
    rw [heq] at hmapped
    cases hmapped
  · intro hnone
    rw [trace?_eq_found?, traceInserted?_eq_lastMapped?, hsame hnone]

/-- Without entries at negative columns no range overhangs. -/
theorem not_overhangs (h : entries.Integral) (hcolumns : ∀ m ∈ entries, 0 ≤ m.column) :
    ¬ entries.Overhangs line column := by
  rintro ⟨-, hbefore, -⟩
  rw [isSome_traceInserted?] at hbefore
  obtain ⟨m, hm⟩ := Option.isSome_iff_exists.mp hbefore
  obtain ⟨hmem, -, hle⟩ := mem_of_lastMapped? hm
  obtain ⟨-, c, -, hc⟩ := h m hmem
  have hnonneg := hcolumns m hmem
  rw [hc] at hnonneg hle
  have hnonneg : 0 ≤ c := Number.intCast_le.mp hnonneg
  have hnegative : c ≤ -1 := Number.intCast_le.mp hle
  omega

/-! ## What a normal form is -/

/-- **A normal form is canonical and changes no lookup**, for entries at integers in any order.  It is
strictly increasing, taken from the entries in their order, and has an entry without an origin only where
it ends a range; a position is mapped to what the last inserted entry maps it to if no range overhangs
there, and only then; and it is its own normal form. -/
theorem normalForm_integral (h : entries.Integral) :
    (normalForm entries).Increasing ∧
      (normalForm entries).Sublist (entries.mergeSort fun a b => !b.precedes a) ∧
      (∀ before m after, normalForm entries = before ++ m :: after → m.origin = none →
        m.column ≠ 0 ∧ ∃ b ∈ before.getLast?, b.line = m.line ∧ b.origin.isSome) ∧
      (∀ line column : Number,
        (normalForm entries).trace? line column = entries.traceInserted? line column ↔
          ¬ entries.Overhangs line column) ∧
      normalForm (normalForm entries) = normalForm entries :=
  ⟨normalForm_increasing_of_integral h, normalForm_sublist_mergeSort h,
    fun _ _ _ heq horigin => normalForm_ends heq horigin,
    fun line column => trace?_normalForm_of_integral h line column,
    normalForm_normalForm_of_integral h⟩

/-- Two entries at one position, and what ends the range of the second. -/
theorem normalForm_integral_twice :
    let first : Mapping := ⟨0, 1, some ⟨0, 0, 0, none⟩⟩
    let second : Mapping := ⟨0, 1, some ⟨0, 3, 5, none⟩⟩
    let last : Mapping := ⟨0, 4, none⟩
    let entries : MappingTable := [first, second, last]
    entries.Integral ∧ normalForm entries = [second, last] ∧
      normalForm (normalForm entries) = normalForm entries ∧
      (normalForm entries).trace? 0 2 = entries.traceInserted? 0 2 ∧
      entries.traceInserted? 0 2 = some ⟨0, 3, 6, none⟩ := by
  intro first second last entries
  have hintegral : entries.Integral :=
    List.forall_mem_cons.mpr ⟨⟨0, 1, rfl, rfl⟩, List.forall_mem_cons.mpr ⟨⟨0, 1, rfl, rfl⟩,
      List.forall_mem_singleton.mpr ⟨0, 4, rfl, rfl⟩⟩⟩
  obtain ⟨-, -, -, hlookup, hidempotent⟩ := normalForm_integral hintegral
  have hstarts : ¬ entries.Overhangs 0 2 := not_overhangs hintegral (by decide +kernel)
  exact ⟨hintegral, by decide +kernel, hidempotent, (hlookup 0 2).mpr hstarts, by decide +kernel⟩

/-- A range that starts at a negative column goes on where it was ended at column 0. -/
theorem normalForm_overhangs :
    let entries : MappingTable := [⟨0, -1, some ⟨0, 0, 0, none⟩⟩, ⟨0, 0, none⟩]
    entries.Integral ∧ (normalForm entries).trace? 0 0 = some ⟨0, 0, 1, none⟩ ∧
      entries.traceInserted? 0 0 = none := by
  intro entries
  have hintegral : entries.Integral :=
    List.forall_mem_cons.mpr ⟨⟨0, -1, rfl, rfl⟩, List.forall_mem_singleton.mpr ⟨0, 0, rfl, rfl⟩⟩
  exact ⟨hintegral, by decide +kernel, by decide +kernel⟩

end MappingTable

end Provenance
