/-
# Entries at places

The entries of composed results stand at places: their generated lines and columns are naturals.  The
order of their generated positions is then the order of the places, and the entry that covers a
place is the last one, by the order of insertion, among those with the greatest column at or before
it on its line.

The main facts:

* `precedes_iff`, `sharesPosition_iff` : the order of entries is that of their places;
* `cover?_sort` : sorting does not change which entry covers a place;
* `find?_eq_cover?` : in a sorted table binary search finds the covering entry.
-/
import Mathlib.Data.List.Induction
import Provenance.Mapping.Normal
import Provenance.Mapping.Trace
import Provenance.Proofs.Latest
import Provenance.Proofs.Lists
import Provenance.Proofs.Number.Rounding
import Provenance.Text.Position

namespace Provenance

/-! ## Numbers that are naturals -/

namespace Number

@[simp] theorem natCast_sub_eq_zero {a b : Nat} :
    (a : Number) - (b : Number) = ((0 : Nat) : Number) ↔ a = b := by
  rw [← intCast_natCast a, ← intCast_natCast b, intCast_sub, rounded_intCast_eq_zero]
  omega

end Number

/-! ## The order of places -/

namespace Text.Position

/-- Places in the order in which they are read. -/
def le (p q : Position) : Bool := p.line < q.line || (p.line == q.line && p.column ≤ q.column)

/-- A place covers those that are not before it on its line. -/
def covers (p q : Position) : Bool := p.line == q.line && p.column ≤ q.column

theorem le_iff {p q : Position} :
    p.le q = true ↔ p.line < q.line ∨ (p.line = q.line ∧ p.column ≤ q.column) := by
  simp [le]

theorem covers_iff {p q : Position} :
    p.covers q = true ↔ p.line = q.line ∧ p.column ≤ q.column := by
  simp [covers]

theorem le_trans (p q r : Position) (hpq : p.le q = true) (hqr : q.le r = true) :
    p.le r = true := by
  rw [le_iff] at *
  omega

theorem le_total (p q : Position) : (p.le q || q.le p) = true := by
  rw [Bool.or_eq_true, le_iff, le_iff]
  omega

theorem ext_iff' {p q : Position} : p = q ↔ p.line = q.line ∧ p.column = q.column := by
  cases p
  cases q
  simp

end Text.Position

/-! ## Entries -/

namespace Mapping

/-- The place of an entry. -/
def place (m : Mapping) : Text.Position := ⟨m.line.toNat?.getD 0, m.column.toNat?.getD 0⟩

/-- The entry stands at its place: its line and column are naturals. -/
structure Placed (m : Mapping) : Prop where
  line : m.line = (m.place.line : Number)
  column : m.column = (m.place.column : Number)

/-- An entry with a natural line and column. -/
theorem placed_mk (l c : Nat) (origin : Option Location) :
    (Mapping.mk (l : Number) (c : Number) origin).Placed :=
  ⟨by simp [place], by simp [place]⟩

@[simp] theorem place_mk (l c : Nat) (origin : Option Location) :
    (Mapping.mk (l : Number) (c : Number) origin).place = ⟨l, c⟩ := by
  simp [place]

variable {a b : Mapping}

/-- The order of entries is that of their places. -/
theorem precedes_iff (ha : a.Placed) (hb : b.Placed) :
    a.precedes b = true ↔ a.place.line < b.place.line ∨
      (a.place.line = b.place.line ∧ a.place.column < b.place.column) := by
  simp only [precedes, ha.line, ha.column, hb.line, hb.column, Number.natCast_lt,
    Bool.or_eq_true, Bool.and_eq_true, decide_eq_true_eq]
  omega

theorem not_precedes_eq_le (ha : a.Placed) (hb : b.Placed) :
    (!b.precedes a) = a.place.le b.place := by
  rw [Bool.eq_iff_iff, Bool.not_eq_true', Text.Position.le_iff, ← Bool.not_eq_true,
    precedes_iff hb ha]
  omega

/-- Two entries share their position if their places are equal. -/
theorem sharesPosition_iff (ha : a.Placed) (hb : b.Placed) :
    a.sharesPosition b = true ↔ a.place = b.place := by
  simp only [sharesPosition, ha.line, ha.column, hb.line, hb.column, Number.natCast_lt,
    Number.ofNat_eq_natCast, Number.natCast_sub_eq_zero, Bool.and_eq_true, decide_eq_true_eq,
    Text.Position.ext_iff']
  omega

end Mapping

/-! ## Tables -/

namespace MappingTable

open Text (Position)

/-- All entries stand at their places. -/
def Placed (table : MappingTable) : Prop := ∀ m ∈ table, m.Placed

/-- Each entry stands behind the one before it, or at the same place. -/
def Sorted (table : MappingTable) : Prop := table.Pairwise fun a b => a.place.le b.place = true

/-- Each entry stands behind the one before it. -/
def Increasing (table : MappingTable) : Prop := table.Pairwise fun a b => a.precedes b = true

/-- The entry that covers a place: the last one inserted among those with the greatest column at or
before it on its line. -/
def cover? (table : MappingTable) (p : Position) : Option Mapping :=
  latest (fun m => m.place.covers p) (fun m => m.place.column) table

/-- What the covering entry of a place maps it to. -/
def origin? (table : MappingTable) (p : Position) : Option Location :=
  (table.cover? p).bind fun m =>
    m.origin.map (Location.advance · ((p.column - m.place.column : Nat) : Number).rounded)

theorem Increasing.sorted {table : MappingTable} (hp : table.Placed) (h : table.Increasing) :
    table.Sorted := by
  refine h.imp_of_mem fun {a b} ha hb hab => ?_
  rw [Mapping.precedes_iff (hp a ha) (hp b hb)] at hab
  rw [Position.le_iff]
  omega

/-! ## Sorting -/

/-- No entry of a table stands before the one it follows if each stands behind all before it, or at
the same place. -/
theorem inOrder_iff_sorted {table : MappingTable} (hp : table.Placed) :
    table.inOrder = true ↔ table.Sorted := by
  induction table with
  | nil => exact iff_of_true rfl List.Pairwise.nil
  | cons a rest ih =>
    cases rest with
    | nil => exact iff_of_true rfl (List.pairwise_singleton _ a)
    | cons b rest =>
      obtain ⟨ha, hrest⟩ := List.forall_mem_cons.mp hp
      rw [inOrder, Bool.and_eq_true, Mapping.not_precedes_eq_le ha (hrest b List.mem_cons_self),
        ih hrest]
      constructor
      · rintro ⟨hab, hsorted⟩
        refine List.Pairwise.cons (fun m hm => ?_) hsorted
        rcases List.mem_cons.mp hm with rfl | hm
        · exact hab
        · exact Position.le_trans _ _ _ hab (List.rel_of_pairwise_cons hsorted hm)
      · intro h
        exact ⟨List.rel_of_pairwise_cons h List.mem_cons_self, h.of_cons⟩

/-- Sorting orders the entries by their places. -/
theorem sort_eq_mergeSort {table : MappingTable} (hp : table.Placed) :
    sort table = table.mergeSort fun a b => a.place.le b.place := by
  have hle : ∀ a ∈ table, ∀ b ∈ table, (a.place.le b.place) = !b.precedes a :=
    fun a ha b hb => (Mapping.not_precedes_eq_le (hp a ha) (hp b hb)).symm
  have hmerge : (table.mergeSort fun a b => a.place.le b.place) =
      table.mergeSort fun a b => !b.precedes a := by
    have h := List.map_mergeSort (r := fun a b : Mapping => a.place.le b.place)
      (s := fun a b : Mapping => !b.precedes a) (f := id) hle
    rwa [List.map_id, List.map_id] at h
  unfold sort
  split
  · -- a table in order is left alone, and merge sort leaves it alone, too
    rename_i hin
    exact (List.mergeSort_of_pairwise ((inOrder_iff_sorted hp).mp hin)).symm
  · exact hmerge.symm

/-- Two entries are swapped if the second one precedes the first. -/
theorem sort_pair {a b : Mapping} (h : b.precedes a = true) : sort [a, b] = [b, a] := by
  rw [sort, if_neg (by simp [inOrder, h]), List.mergeSort]
  simp [h, List.MergeSort.Internal.splitInTwo_fst, List.MergeSort.Internal.splitInTwo_snd]

theorem sort_sorted {table : MappingTable} (hp : table.Placed) : (sort table).Sorted := by
  rw [sort_eq_mergeSort hp]
  exact List.pairwise_mergeSort (fun a b c => Position.le_trans a.place b.place c.place)
    (fun a b => Position.le_total a.place b.place) table

/-- Entries at one place keep their order. -/
theorem filter_sort {table : MappingTable} (hp : table.Placed) (q : Mapping → Bool)
    (hq : ∀ a b, q a = true → q b = true → a.place = b.place) :
    (sort table).filter q = table.filter q := by
  rw [sort_eq_mergeSort hp]
  refine filter_mergeSort (fun a b c => Position.le_trans a.place b.place c.place)
    (fun a b => Position.le_total a.place b.place) (fun a b ha hb => ?_) table
  rw [hq a b ha hb, Position.le_iff]
  omega

/-- Sorting does not change which entry covers a place. -/
theorem cover?_sort {table : MappingTable} (hp : table.Placed) (p : Position) :
    (sort table).cover? p = table.cover? p := by
  refine latest_of_perm (sort_perm table) fun k => filter_sort hp _ fun a b ha hb => ?_
  rw [Bool.and_eq_true, Position.covers_iff, beq_iff_eq] at ha hb
  rw [Position.ext_iff']
  omega

/-! ## Looking up -/

theorem reaches_eq_le {m : Mapping} (hm : m.Placed) (p : Position) :
    reaches (p.line : Number) (p.column : Number) m = m.place.le p := by
  simp only [reaches, Position.le, hm.line, hm.column, Number.natCast_lt, Number.natCast_inj,
    Number.natCast_le]
  rfl

/-- A sorted table is cut in two by a place: the entries up to it, and those behind it. -/
theorem exists_cut {table : MappingTable} (hs : table.Sorted) (p : Position) :
    ∃ before after, table = before ++ after ∧ (∀ m ∈ before, m.place.le p = true) ∧
      ∀ m ∈ after, m.place.le p = false := by
  induction table with
  | nil => exact ⟨[], [], rfl, by simp, by simp⟩
  | cons a rest ih =>
    obtain ⟨hle, hrest⟩ := List.pairwise_cons.mp hs
    cases ha : a.place.le p with
    | true =>
      obtain ⟨before, after, rfl, hbefore, hafter⟩ := ih hrest
      refine ⟨a :: before, after, rfl, ?_, hafter⟩
      intro m hm
      rcases List.mem_cons.mp hm with rfl | hm
      · exact ha
      · exact hbefore m hm
    | false =>
      refine ⟨[], a :: rest, rfl, by simp, ?_⟩
      intro m hm
      rcases List.mem_cons.mp hm with rfl | hm
      · exact ha
      · by_contra hp
        rw [Bool.not_eq_false] at hp
        rw [Position.le_trans _ _ _ (hle m hm) hp] at ha
        cases ha

/-- What covers a place is not behind it. -/
theorem le_of_covers {p q : Position} (h : p.covers q = true) : p.le q = true := by
  rw [Position.covers_iff] at h
  rw [Position.le_iff]
  exact Or.inr h

/-- In a sorted table the covering entry is the last one that covers the place. -/
theorem Sorted.cover?_eq {table : MappingTable} (hs : table.Sorted) (p : Position) :
    table.cover? p = (table.filter fun m => m.place.covers p).getLast? := by
  apply latest_eq_getLast?
  refine (hs.filter _).imp_of_mem fun {a b} ha hb hab => ?_
  have ha := Position.covers_iff.mp (List.mem_filter.mp ha).2
  have hb := Position.covers_iff.mp (List.mem_filter.mp hb).2
  rw [Position.le_iff] at hab
  omega

/-- In a sorted table binary search finds the covering entry. -/
theorem find?_eq_cover? {table : MappingTable} (hp : table.Placed) (hs : table.Sorted)
    (p : Position) :
    (table.find? (p.line : Number) (p.column : Number)).map Prod.snd = table.cover? p := by
  obtain ⟨before, after, rfl, hbefore, hafter⟩ := exists_cut hs p
  have hpoint : partitionPoint (reaches (p.line : Number) (p.column : Number)) (before ++ after) =
      before.length := by
    refine partitionPoint_append _ before after (fun m hm => ?_) fun m hm => ?_
    · rw [reaches_eq_le (hp m (List.mem_append_left after hm)), hbefore m hm]
    · rw [reaches_eq_le (hp m (List.mem_append_right before hm)), hafter m hm]
  have hnone : (after.filter fun m => m.place.covers p) = [] := by
    rw [List.filter_eq_nil_iff]
    intro m hm hc
    exact absurd (le_of_covers hc) (by rw [hafter m hm]; exact Bool.false_ne_true)
  rw [Sorted.cover?_eq hs, List.filter_append, hnone, List.append_nil]
  unfold find?
  rw [hpoint]
  rcases List.eq_nil_or_concat before with rfl | ⟨first, m, rfl⟩
  · rfl
  · have hm : m.Placed := hp m (by simp)
    have hle := Position.le_iff.mp (hbefore m (by simp))
    have hget : ((first ++ [m]) ++ after)[first.length]? = some m := by simp
    simp only [List.concat_eq_append, List.length_append, List.length_singleton] at *
    rw [hget]
    simp only [hm.line, Number.natCast_inj]
    -- the last entry up to the place covers it if it is on its line, and else none does
    by_cases hline : m.place.line = p.line
    · have hc : m.place.covers p = true := Position.covers_iff.mpr ⟨hline, by omega⟩
      have hlast : ([m].filter fun m => m.place.covers p) = [m] := by simp [hc]
      rw [if_pos hline, List.filter_append, hlast, List.getLast?_concat]
      rfl
    · have hempty : ((first ++ [m]).filter fun m => m.place.covers p) = [] := by
        rw [List.filter_eq_nil_iff]
        intro x hx hc
        have hxm : x.place.le m.place = true := by
          rcases List.mem_append.mp hx with hx | hx
          · exact (List.pairwise_append.mp (List.pairwise_append.mp hs).1).2.2 x hx m (by simp)
          · rw [List.mem_singleton.mp hx, Position.le_iff]
            omega
        have hc := Position.covers_iff.mp hc
        have hxm := Position.le_iff.mp hxm
        omega
      rw [if_neg hline, hempty]
      rfl

/-- In a sorted table a place is traced to what its covering entry maps it to. -/
theorem trace?_eq_origin? {table : MappingTable} (hp : table.Placed) (hs : table.Sorted)
    (p : Position) :
    table.trace? (p.line : Number) (p.column : Number) = table.origin? p := by
  have hfind := find?_eq_cover? hp hs p
  unfold trace? origin?
  rw [← hfind]
  cases hf : table.find? (p.line : Number) (p.column : Number) with
  | none => rfl
  | some found =>
    obtain ⟨i, m⟩ := found
    rw [hf, Option.map_some] at hfind
    obtain ⟨hmem, hc⟩ := mem_of_latest hfind.symm
    have hc := Position.covers_iff.mp hc
    cases ho : m.origin with
    | none => simp [ho]
    | some o =>
      simp only [Option.bind_eq_bind, Option.bind_some, Option.map_some, ho]
      rw [(hp m hmem).column, Number.natCast_sub_natCast hc.2]

end MappingTable

end Provenance
