/-
# Normal forms of tables of integers

Entries may be given at any integers, also at negative ones.  Sorting, keeping the last entry at each
position and looking up compare lines and columns only, so they are the same for entries whose lines and
columns are all raised by one distance; raised far enough, the entries stand at places.  What is not the
same is that an entry without an origin is dropped at column 0, where no entry should stand before it on
its line: if one does, at a negative column, its range is not ended any more.

The main facts:

* `normalForm_raise` : the normal form of raised entries, but for what is dropped at column 0;
* `normalForm_increasing_of_integral`, `normalForm_sublist_mergeSort`, `normalForm_ends`,
  `normalForm_normalForm_of_integral` : what a normal form of entries at integers looks like;
* `isDropped_iff` : where a dropped entry would have ended a range.
-/
import Provenance.Proofs.Mapping.Canonical

namespace Provenance

theorem Number.intCast_eq_natCast {i : Int} {n : Nat} : (i : Number) = (n : Number) ↔ i = n := by
  rw [← intCast_natCast, intCast_inj]

theorem Number.getD_toNat?_intCast (i : Int) : (i : Number).toNat?.getD 0 = i.toNat := by
  unfold toNat?
  rw [toInt?_intCast]
  cases i <;> rfl

/-! ## Raised entries -/

namespace Mapping

/-- The line and the column of an entry are integers. -/
def Integral (m : Mapping) : Prop :=
  ∃ line column : Int, m.line = (line : Number) ∧ m.column = (column : Number)

/-- An entry with its line and its column raised by a distance. -/
def raise (k : Nat) (m : Mapping) : Mapping :=
  { m with line := m.line.moved k, column := m.column.moved k }

/-- Raised by a distance, an entry stands at a place behind the start of its line. -/
def RaisedBy (k : Nat) (m : Mapping) : Prop := (m.raise k).Placed ∧ 0 < (m.raise k).place.column

variable {a b m : Mapping} {k : Nat}

@[simp] theorem origin_raise (k : Nat) (m : Mapping) : (m.raise k).origin = m.origin := rfl

variable {line column : Int}

theorem line_raise (hline : m.line = (line : Number)) (k : Nat) :
    (m.raise k).line = ((line + k : Int) : Number) := by
  rw [raise, hline, Number.moved_intCast]

theorem column_raise (hcolumn : m.column = (column : Number)) (k : Nat) :
    (m.raise k).column = ((column + k : Int) : Number) := by
  rw [raise, hcolumn, Number.moved_intCast]

theorem place_raise (hline : m.line = (line : Number)) (hcolumn : m.column = (column : Number))
    (k : Nat) : (m.raise k).place = ⟨(line + k).toNat, (column + k).toNat⟩ := by
  rw [place, line_raise hline, column_raise hcolumn, Number.getD_toNat?_intCast,
    Number.getD_toNat?_intCast]

/-- The distances by which an entry at integers is raised far enough. -/
theorem raisedBy_iff (hline : m.line = (line : Number)) (hcolumn : m.column = (column : Number)) :
    m.RaisedBy k ↔ 0 ≤ line + k ∧ 0 < column + k := by
  have hplaced : (m.raise k).Placed ↔ line + k = (line + k).toNat ∧ column + k = (column + k).toNat := by
    rw [← Number.intCast_eq_natCast, ← Number.intCast_eq_natCast, ← line_raise hline,
      ← column_raise hcolumn]
    have hplace := place_raise hline hcolumn k
    exact ⟨fun h => ⟨by rw [h.line, hplace], by rw [h.column, hplace]⟩,
      fun h => ⟨by rw [h.1, hplace], by rw [h.2, hplace]⟩⟩
  rw [RaisedBy, hplaced, place_raise hline hcolumn]
  show (_ ∧ _) ∧ 0 < (column + k).toNat ↔ _
  omega

theorem precedes_raise (ha : a.Integral) (hb : b.Integral) (k : Nat) :
    (a.raise k).precedes (b.raise k) = a.precedes b := by
  obtain ⟨l, c, hl, hc⟩ := ha
  obtain ⟨l', c', hl', hc'⟩ := hb
  simp [precedes, hl, hc, hl', hc', line_raise hl, column_raise hc, line_raise hl', column_raise hc']

theorem sharesPosition_raise (ha : a.Integral) (hb : b.Integral) (k : Nat) :
    (a.raise k).sharesPosition (b.raise k) = a.sharesPosition b := by
  obtain ⟨l, c, hl, hc⟩ := ha
  obtain ⟨l', c', hl', hc'⟩ := hb
  have hdistance : c + k - (c' + k) = c - c' := by omega
  simp [sharesPosition, hl, hc, hl', hc', line_raise hl, column_raise hc, line_raise hl',
    column_raise hc', Number.intCast_sub, hdistance]

theorem line_raise_eq_iff (ha : a.Integral) (hb : b.Integral) (k : Nat) :
    (a.raise k).line = (b.raise k).line ↔ a.line = b.line := by
  obtain ⟨l, c, hl, hc⟩ := ha
  obtain ⟨l', c', hl', hc'⟩ := hb
  simp [hl, hl', line_raise hl, line_raise hl']

/-- Of two entries at one position neither stands before the other. -/
theorem sharesPosition_of_precedes (ha : a.Integral) (hb : b.Integral) (h : a.precedes b = true) :
    ¬ a.sharesPosition b = true := by
  obtain ⟨l, c, hl, hc⟩ := ha
  obtain ⟨l', c', hl', hc'⟩ := hb
  simp only [precedes, sharesPosition, hl, hc, hl', hc', Number.intCast_lt, Number.intCast_sub,
    Bool.or_eq_true, Bool.and_eq_true, decide_eq_true_eq] at h ⊢
  rw [Number.ofNat_eq_natCast, Number.rounded_intCast_eq_zero]
  omega

/-- Raising moves different entries to different ones. -/
theorem eq_of_raise (ha : a.Integral) (hb : b.Integral) (h : a.raise k = b.raise k) : a = b := by
  obtain ⟨l, c, hl, hc⟩ := ha
  obtain ⟨l', c', hl', hc'⟩ := hb
  have hline := congrArg Mapping.line h
  have hcolumn := congrArg Mapping.column h
  rw [line_raise hl, line_raise hl', Number.intCast_inj, Int.add_left_inj] at hline
  rw [column_raise hc, column_raise hc', Number.intCast_inj, Int.add_left_inj] at hcolumn
  obtain ⟨line, column, origin⟩ := a
  obtain ⟨line', column', origin'⟩ := b
  obtain rfl : origin = origin' := congrArg Mapping.origin h
  simp only at hl hc hl' hc'
  rw [hl, hc, hl', hc', hline, hcolumn]

/-- An entry at column 0 is raised to the distance. -/
theorem RaisedBy.column_eq_zero_iff (h : m.RaisedBy k) (hm : m.Integral) :
    m.column = 0 ↔ (m.raise k).place.column = k := by
  obtain ⟨line, column, hline, hcolumn⟩ := hm
  rw [place_raise hline hcolumn, hcolumn, show (0 : Number) = ((0 : Nat) : Number) from rfl,
    Number.intCast_eq_natCast]
  have := ((raisedBy_iff hline hcolumn).mp h).2
  show _ ↔ (column + k).toNat = k
  omega

theorem RaisedBy.column_ne_zero (h : m.RaisedBy k) : (m.raise k).column ≠ 0 := by
  have := h.2
  rw [h.1.column, show (0 : Number) = ((0 : Nat) : Number) from rfl, ne_eq, Number.natCast_inj]
  omega

end Mapping

/-! ## Raised tables -/

namespace MappingTable

open Text (Position)

/-- All entries are at integers. -/
def Integral (table : MappingTable) : Prop := ∀ m ∈ table, m.Integral

/-- A table with all entries raised. -/
def raise (k : Nat) (table : MappingTable) : MappingTable := table.map (Mapping.raise k)

/-- Raised by a distance, all entries stand at places behind the starts of their lines. -/
def RaisedBy (k : Nat) (table : MappingTable) : Prop := ∀ m ∈ table, m.RaisedBy k

variable {entries table : MappingTable} {m b : Mapping} {k : Nat} {line column : Int}

theorem Integral.subset {other : MappingTable} (h : table.Integral) (hsub : other ⊆ table) :
    other.Integral := fun m hm => h m (hsub hm)

/-- The lines and columns of a table at integers are bounded. -/
theorem Integral.exists_bound (h : table.Integral) : ∃ bound : Nat, ∀ m ∈ table,
    ∃ line column : Int, m.line = (line : Number) ∧ m.column = (column : Number) ∧
      line.natAbs < bound ∧ column.natAbs < bound := by
  induction table with
  | nil => exact ⟨0, fun m hm => absurd hm List.not_mem_nil⟩
  | cons m rest ih =>
    obtain ⟨⟨line, column, hline, hcolumn⟩, hrest⟩ := List.forall_mem_cons.mp h
    obtain ⟨bound, hbound⟩ := ih hrest
    refine ⟨max bound (line.natAbs + column.natAbs + 1),
      List.forall_mem_cons.mpr ⟨⟨line, column, hline, hcolumn, by omega, by omega⟩, fun b hb => ?_⟩⟩
    obtain ⟨line', column', hline', hcolumn', hlt, hlt'⟩ := hbound b hb
    exact ⟨line', column', hline', hcolumn', by omega, by omega⟩

/-- Entries at integers are at places when they are raised far enough. -/
theorem Integral.raisedBy (h : table.Integral) : ∃ least : Nat, ∀ k ≥ least, table.RaisedBy k := by
  obtain ⟨bound, hbound⟩ := h.exists_bound
  refine ⟨bound, fun k hk m hm => ?_⟩
  obtain ⟨line, column, hline, hcolumn, hlt, hlt'⟩ := hbound m hm
  rw [Mapping.raisedBy_iff hline hcolumn]
  omega

theorem RaisedBy.placed (h : table.RaisedBy k) : (table.raise k).Placed := by
  intro m hm
  obtain ⟨own, hown, rfl⟩ := List.mem_map.mp hm
  exact (h own hown).1

/-! ### Sorting and dropping -/

theorem inOrder_raise (h : table.Integral) (k : Nat) : (table.raise k).inOrder = table.inOrder := by
  induction table with
  | nil => rfl
  | cons a rest ih =>
    obtain ⟨ha, hrest⟩ := List.forall_mem_cons.mp h
    cases rest with
    | nil => rfl
    | cons b rest =>
      have ih := ih hrest
      simp only [raise, List.map_cons, inOrder] at ih ⊢
      rw [ih, Mapping.precedes_raise (hrest b List.mem_cons_self) ha]

theorem mergeSort_raise (h : table.Integral) (k : Nat) :
    (table.raise k).mergeSort (fun a b => !b.precedes a) =
      raise k (table.mergeSort fun a b => !b.precedes a) := by
  refine (List.map_mergeSort fun a ha b hb => ?_).symm
  rw [Mapping.precedes_raise (h b hb) (h a ha)]

theorem sort_raise (h : table.Integral) (k : Nat) : sort (table.raise k) = raise k (sort table) := by
  unfold sort
  rw [inOrder_raise h, mergeSort_raise h]
  split <;> rfl

theorem increasing_raise_iff (h : table.Integral) (k : Nat) :
    (table.raise k).Increasing ↔ table.Increasing := by
  unfold Increasing raise
  rw [List.pairwise_map]
  exact List.Pairwise.iff_of_mem fun {a b} ha hb => by rw [Mapping.precedes_raise (h a ha) (h b hb)]

/-- Entries at integers that increase are in order. -/
theorem Increasing.inOrder (h : table.Integral) (hi : table.Increasing) : table.inOrder = true := by
  obtain ⟨k, hleast⟩ := h.raisedBy
  have hplaced := (hleast k (Nat.le_refl k)).placed
  rw [← inOrder_raise h k, inOrder_iff_sorted hplaced]
  exact ((increasing_raise_iff h k).mpr hi).sorted hplaced

/-- In a table in order no entry stands before one that it follows, next to it or not. -/
theorem Integral.pairwise_of_inOrder (h : table.Integral) (hin : table.inOrder = true) :
    table.Pairwise fun a b => (!b.precedes a) = true := by
  obtain ⟨k, hleast⟩ := h.raisedBy
  have hraised := hleast k (Nat.le_refl k)
  rw [← inOrder_raise h k, inOrder_iff_sorted hraised.placed, Sorted, raise, List.pairwise_map] at hin
  refine hin.imp_of_mem fun {a b} ha hb hab => ?_
  rwa [← Mapping.precedes_raise (h b hb) (h a ha) k,
    Mapping.not_precedes_eq_le (hraised a ha).1 (hraised b hb).1]

/-- Entries at integers are sorted by merging, those in order too. -/
theorem Integral.sort_eq_mergeSort (h : table.Integral) :
    sort table = table.mergeSort fun a b => !b.precedes a := by
  unfold sort
  split
  · rename_i hin
    exact (List.mergeSort_of_pairwise (h.pairwise_of_inOrder hin)).symm
  · rfl

theorem keepLast_raise (h : table.Integral) (k : Nat) :
    keepLast (table.raise k) = raise k (keepLast table) := by
  induction table with
  | nil => rfl
  | cons a rest ih =>
    obtain ⟨ha, hrest⟩ := List.forall_mem_cons.mp h
    cases rest with
    | nil => rfl
    | cons b rest =>
      have ih := ih hrest
      simp only [raise, List.map_cons, keepLast] at ih ⊢
      rw [ih, Mapping.sharesPosition_raise ha (hrest b List.mem_cons_self)]
      split <;> rfl

/-- Whether a raised entry is not one without an origin where column 0 is raised to. -/
def isKept (k : Nat) (m : Mapping) : Bool := m.origin.isSome || m.place.column != k

/-- A raised table without the entries that have no origin where column 0 is raised to. -/
def kept (k : Nat) (table : MappingTable) : MappingTable := table.filter (isKept k)

theorem isKept_eq_false_iff : isKept k m = false ↔ m.origin = none ∧ m.place.column = k := by
  unfold isKept
  rw [Bool.or_eq_false_iff, ← Bool.not_eq_true, Option.not_isSome_iff_eq_none, bne_eq_false_iff_eq]

theorem mem_kept : m ∈ kept k table ↔ m ∈ table ∧ isKept k m = true := List.mem_filter

theorem Placed.kept (h : table.Placed) (k : Nat) : (kept k table).Placed := fun m hm =>
  h m (mem_kept.mp hm).1

theorem Increasing.kept (h : table.Increasing) (k : Nat) : (kept k table).Increasing :=
  h.sublist List.filter_sublist

theorem isEffective_raise (hm : m.Integral) (hraised : m.RaisedBy k) {before : Option Mapping}
    (hbefore : ∀ b ∈ before, b.Integral) : isEffective before m =
      (isEffective (before.map (Mapping.raise k)) (m.raise k) && isKept k (m.raise k)) := by
  have hcolumn := hraised.column_ne_zero
  rw [Bool.eq_iff_iff, Bool.and_eq_true, isEffective_iff, isEffective_iff, isKept, Bool.or_eq_true,
    bne_iff_ne, ne_eq, ne_eq, hraised.column_eq_zero_iff hm]
  cases before with
  | none =>
    simp only [Option.map_none, Option.not_mem_none, false_and, exists_false, Mapping.origin_raise]
    tauto
  | some b =>
    simp only [Option.map_some, Option.mem_some_iff, exists_eq_left', Mapping.origin_raise,
      Mapping.line_raise_eq_iff (hbefore b rfl) hm]
    tauto

/-- Dropping entries is the same for raised entries, but for those at column 0. -/
theorem dropIdle_raise (h : table.Integral) (hraised : table.RaisedBy k) {before : Option Mapping}
    (hbefore : ∀ b ∈ before, b.Integral) :
    raise k (dropIdle before table) =
      kept k (dropIdle (before.map (Mapping.raise k)) (table.raise k)) := by
  induction table generalizing before with
  | nil => rfl
  | cons m rest ih =>
    obtain ⟨hm, hrest⟩ := List.forall_mem_cons.mp h
    obtain ⟨hmraised, hrestraised⟩ := List.forall_mem_cons.mp hraised
    have ih : raise k (dropIdle (some m) rest) = kept k (dropIdle (some (m.raise k)) (raise k rest)) :=
      ih hrest hrestraised (by simpa using hm)
    rw [dropIdle, isEffective_raise hm hmraised hbefore,
      show (raise k (m :: rest)) = m.raise k :: raise k rest from rfl, dropIdle]
    cases isEffective (before.map (Mapping.raise k)) (m.raise k) with
    | false => exact ih
    | true =>
      cases hkept : isKept k (m.raise k) with
      | false =>
        rw [if_pos rfl, kept, List.filter_cons_of_neg (by simp [hkept])]
        exact ih
      | true =>
        rw [if_pos rfl, kept, List.filter_cons_of_pos hkept]
        exact congrArg (m.raise k :: ·) ih

/-- **The normal form of raised entries**, but for what is dropped at column 0. -/
theorem normalForm_raise (h : entries.Integral) (hraised : entries.RaisedBy k) :
    raise k (normalForm entries) = kept k (normalForm (entries.raise k)) := by
  have hsort : (sort entries).Integral := h.subset (sort_perm entries).subset
  have hsub : keepLast (sort entries) ⊆ entries := fun m hm =>
    (sort_perm entries).subset ((keepLast_sublist _).subset hm)
  unfold normalForm
  rw [dropIdle_raise (h.subset hsub) (fun m hm => hraised m (hsub hm)) (by simp), sort_raise h,
    keepLast_raise hsort, Option.map_none]

theorem normalForm_sublist_mergeSort (h : entries.Integral) :
    (normalForm entries).Sublist (entries.mergeSort fun a b => !b.precedes a) := by
  rw [← h.sort_eq_mergeSort]
  exact (dropIdle_sublist _ _).trans (keepLast_sublist _)

theorem Integral.normalForm (h : entries.Integral) : (normalForm entries).Integral :=
  h.subset fun _ => normalForm_subset

theorem normalForm_increasing_of_integral (h : entries.Integral) : (normalForm entries).Increasing := by
  obtain ⟨k, hleast⟩ := h.raisedBy
  have hraised := hleast k (Nat.le_refl k)
  rw [← increasing_raise_iff h.normalForm k, normalForm_raise h hraised]
  exact (normalForm_increasing hraised.placed).kept k

/-- What ends a range in a normal form stands right behind what starts it, and not at the start of
its line. -/
theorem normalForm_ends {before after : MappingTable}
    (heq : normalForm entries = before ++ m :: after) (horigin : m.origin = none) :
    m.column ≠ 0 ∧ ∃ b ∈ before.getLast?, b.line = m.line ∧ b.origin.isSome := by
  have hmem : m ∈ normalForm entries := heq ▸ List.mem_append_right before List.mem_cons_self
  exact ⟨column_ne_zero_of_mem_dropIdle hmem horigin,
    normalForm_closed entries before m after heq horigin⟩

/-- **The normal form of a normal form of entries at integers is that normal form.** -/
theorem normalForm_normalForm_of_integral (h : entries.Integral) :
    normalForm (normalForm entries) = normalForm entries := by
  have hincreasing := normalForm_increasing_of_integral h
  have hdifferent : (normalForm entries).Pairwise fun a b => ¬ a.sharesPosition b = true :=
    hincreasing.imp_of_mem fun {a b} ha hb =>
      Mapping.sharesPosition_of_precedes (h.normalForm a ha) (h.normalForm b hb)
  rw [normalForm, sort_of_inOrder (hincreasing.inOrder h.normalForm),
    keepLast_eq_self_of_pairwise hdifferent]
  exact dropIdle_eq_self_of_closed (normalForm_closed entries) fun m hm =>
    column_ne_zero_of_mem_dropIdle hm

/-! ## What is dropped at column 0 -/

variable {p : Position}

/-- Without the entry that ended it a range goes on. -/
theorem isSome_mappedBy?_of_dropped (hp : table.Placed) (hi : table.Increasing) (hc : table.Closed)
    (hcover : table.cover? p = some b) (hdropped : isKept k b = false) :
    ((kept k table).mappedBy? p).isSome := by
  obtain ⟨hb, hcovers, hgreatest⟩ := (hi.cover?_eq_some_iff hp).mp hcover
  obtain ⟨horigin, -⟩ := isKept_eq_false_iff.mp hdropped
  obtain ⟨-, column, hcolumn, hsome⟩ := hc.endsAt hp hi hb horigin
  obtain ⟨a, ha⟩ := Option.isSome_iff_exists.mp hsome
  obtain ⟨hacover, hasome⟩ := mappedBy?_eq_some_iff.mp ha
  obtain ⟨hamem, hacovers, hagreatest⟩ := (hi.cover?_eq_some_iff hp).mp hacover
  have hkept : a ∈ kept k table := mem_kept.mpr ⟨hamem, by rw [isKept, hasome, Bool.true_or]⟩
  obtain ⟨hline, hle⟩ := Position.covers_iff.mp hcovers
  obtain ⟨haline, hacolumn⟩ := Position.covers_iff.mp hacovers
  simp only at haline hacolumn
  -- what is left stands before the dropped entry, and so not behind the one before it
  have hlast : (kept k table).cover? p = some a := by
    refine ((hi.kept k).cover?_eq_some_iff (hp.kept k)).mpr
      ⟨hkept, Position.covers_iff.mpr (by omega), fun c hcmem hccovers => ?_⟩
    obtain ⟨hcmem, hckept⟩ := mem_kept.mp hcmem
    have hcb := hgreatest c hcmem hccovers
    obtain ⟨hcline, -⟩ := Position.covers_iff.mp hccovers
    have hne : c.place.column ≠ b.place.column := by
      intro heq
      have hcb := hi.eq_of_place hp hcmem hb (Position.ext_iff'.mpr ⟨by omega, heq⟩)
      rw [hcb, hdropped] at hckept
      cases hckept
    have hcovers' : c.place.covers ⟨b.place.line, column⟩ = true :=
      Position.covers_iff.mpr ⟨hcline.trans hline.symm, by simp only; omega⟩
    exact hagreatest c hcmem hcovers'
  exact Option.isSome_of_eq_some (mappedBy?_eq_some_iff.mpr ⟨hlast, hasome⟩)

/-- A place falls to the same entry without the dropped ones, unless it falls to one of these. -/
theorem mappedBy?_kept (hp : table.Placed) (hi : table.Increasing)
    (hnone : ¬ ∃ b, table.cover? p = some b ∧ isKept k b = false) :
    (kept k table).mappedBy? p = table.mappedBy? p := by
  have hsame : (kept k table).cover? p = table.cover? p := by
    cases hcover : table.cover? p with
    | none =>
      apply latest_eq_none
      intro m hm
      by_contra hcovers
      obtain ⟨z, hz, -⟩ : ∃ z ∈ table.cover? p, m.place.column ≤ z.place.column :=
        exists_latest (mem_kept.mp hm).1 (by simpa using hcovers)
      rw [hcover] at hz
      cases hz
    | some b =>
      obtain ⟨hb, hcovers, hgreatest⟩ := (hi.cover?_eq_some_iff hp).mp hcover
      have hkept : isKept k b = true := by
        rw [← Bool.not_eq_false]
        exact fun hdropped => hnone ⟨b, hcover, hdropped⟩
      exact ((hi.kept k).cover?_eq_some_iff (hp.kept k)).mpr
        ⟨mem_kept.mpr ⟨hb, hkept⟩, hcovers, fun c hc => hgreatest c (mem_kept.mp hc).1⟩
  rw [mappedBy?, hsame]
  rfl

/-- In an increasing table an entry covers a place up to which no other starts. -/
theorem Increasing.cover?_of_cover? (hp : table.Placed) (hi : table.Increasing) {column : Nat}
    (hcover : table.cover? p = some b) (hlow : b.place.column ≤ column) (hhigh : column ≤ p.column) :
    table.cover? ⟨p.line, column⟩ = some b := by
  obtain ⟨hb, hcovers, hgreatest⟩ := (hi.cover?_eq_some_iff hp).mp hcover
  obtain ⟨hline, -⟩ := Position.covers_iff.mp hcovers
  refine (hi.cover?_eq_some_iff hp).mpr ⟨hb, Position.covers_iff.mpr ⟨hline, hlow⟩, fun c hc hcc => ?_⟩
  obtain ⟨hcline, hcolumn⟩ := Position.covers_iff.mp hcc
  exact hgreatest c hc (Position.covers_iff.mpr ⟨hcline, Nat.le_trans hcolumn hhigh⟩)

/-- **Where a dropped entry ended a range**: the place before column 0 is mapped, and no place from there
to the place in question is. -/
theorem isDropped_iff (hp : table.Placed) (hi : table.Increasing) (hc : table.Closed) :
    (∃ b, table.cover? p = some b ∧ isKept (k + 1) b = false) ↔
      k < p.column ∧ (table.mappedBy? ⟨p.line, k⟩).isSome ∧
        ∀ column, k < column → column ≤ p.column → table.mappedBy? ⟨p.line, column⟩ = none := by
  constructor
  · rintro ⟨b, hcover, hdropped⟩
    obtain ⟨hb, hcovers⟩ := mem_of_latest hcover
    obtain ⟨hline, hle⟩ := Position.covers_iff.mp hcovers
    obtain ⟨horigin, hcolumn⟩ := isKept_eq_false_iff.mp hdropped
    obtain ⟨-, column, hbefore, hsome⟩ := hc.endsAt hp hi hb horigin
    obtain rfl : column = k := by omega
    rw [hline] at hsome
    refine ⟨by omega, hsome, fun c hlow hhigh => ?_⟩
    rw [mappedBy?, hi.cover?_of_cover? hp hcover (by omega) hhigh, Option.filter_some, if_neg]
    simp [horigin]
  · rintro ⟨hlt, hsome, hnone⟩
    obtain ⟨a, ha⟩ := Option.isSome_iff_exists.mp hsome
    obtain ⟨hacover, hasome⟩ := mappedBy?_eq_some_iff.mp ha
    obtain ⟨hamem, haline, hacolumn⟩ := covers_of_mappedBy? ha
    simp only at haline hacolumn
    -- the place is covered, by an entry without an origin
    obtain ⟨b, hb, hab⟩ : ∃ b ∈ table.cover? p, a.place.column ≤ b.place.column :=
      exists_latest hamem (Position.covers_iff.mpr ⟨haline, by omega⟩)
    obtain ⟨hbmem, hbcovers⟩ := mem_of_latest hb
    obtain ⟨hbline, hbcolumn⟩ := Position.covers_iff.mp hbcovers
    have horigin : b.origin = none := by
      have hpnone := hnone p.column hlt (Nat.le_refl _)
      rw [mappedBy?, show table.cover? ⟨p.line, p.column⟩ = some b from hb, Option.filter_some]
        at hpnone
      simpa using hpnone
    -- it does not stand before column `k + 1`, where it would cover the place before
    have hlow : k < b.place.column := by
      by_contra hle
      have hcover := hi.cover?_of_cover? hp hb (Nat.le_of_not_lt hle) (Nat.le_of_lt hlt)
      rw [hacover] at hcover
      rw [Option.some.inj hcover, horigin] at hasome
      cases hasome
    -- and not behind, where it would end a range behind column `k`
    obtain ⟨-, column, hcolumn, hbefore⟩ := hc.endsAt hp hi hbmem horigin
    refine ⟨b, hb, isKept_eq_false_iff.mpr ⟨horigin, ?_⟩⟩
    by_contra hne
    rw [hbline, hnone column (by omega) (by omega)] at hbefore
    cases hbefore

end MappingTable

end Provenance
