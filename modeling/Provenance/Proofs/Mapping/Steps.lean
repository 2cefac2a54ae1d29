/-
# Steps between values

A field is the step from the last value of its kind to the next one, and holds 31 bits of it.  The
steps of a table fit if each value is so near the one before it: generated columns on each line,
other values in the whole table.

The main facts:

* `near_iff` : a step is read back from its numeral if and only if it fits;
* `stepsFit_of_le` : between values of 31 bits all steps fit;
* `Cursor.reaches_cons` : the steps from a cursor on fit if those to the next entry do, and those
  from there.
-/
import Provenance.Proofs.Mapping.Encode
import Provenance.Proofs.Vlq.Words

namespace Provenance

open Vlq (Numeral maxMagnitude)

/-! ## One step -/

namespace Number

/-- A number is at most 31 bits away from another. -/
def Near (x y : Number) : Prop := ∃ d : Int, d.natAbs ≤ maxMagnitude ∧ y = x.moved d

theorem near_natCast {a b : Nat} :
    Near (a : Number) (b : Number) ↔ ((b : Int) - a).natAbs ≤ maxMagnitude := by
  constructor
  · rintro ⟨d, hd, h⟩
    rw [← intCast_natCast, ← intCast_natCast, moved_intCast, intCast_inj] at h
    rwa [show (b : Int) - a = d by omega]
  · intro h
    refine ⟨_, h, ?_⟩
    rw [← intCast_natCast, ← intCast_natCast, moved_intCast]
    congr 1
    omega

/-- A distance of more than 31 bits is far from what its numeral stands for. -/
theorem far_of_value {d : Int} (h : maxMagnitude < d.natAbs) :
    2 ^ 31 ≤ (d - (Numeral.ofNumber (roundInt d : Number)).value).natAbs := by
  unfold maxMagnitude at h
  have hvalue := Numeral.natAbs_value_le (Numeral.ofNumber (roundInt d : Number))
  unfold maxMagnitude at hvalue
  by_cases hd : d.natAbs ≤ exactLimit
  · -- the numeral stands for the remainder of the distance
    rw [Numeral.value_ofNumber_intCast, roundInt_of_le hd]
    have hsplit := Int.mul_tdiv_add_tmod d 0x80000000
    rw [Numeral.value_ofNumber_intCast, roundInt_of_le hd] at hvalue
    generalize d.tdiv 0x80000000 = q at hsplit
    generalize d.tmod 0x80000000 = t at hsplit hvalue ⊢
    omega
  · have hlimit : exactLimit = 2 ^ 53 := rfl
    omega

/-- **A step between naturals is read back from its numeral if and only if it fits.** -/
theorem near_iff {a b : Nat} (ha : Settled (a : Number)) (hb : Settled (b : Number)) :
    Near (a : Number) (b : Number) ↔
      (a : Number) +
          ((Numeral.ofNumber (MappingTable.delta (b : Number) (a : Number))).value : Number) =
        (b : Number) := by
  obtain ⟨hale, -⟩ := settled_natCast.mp ha
  obtain ⟨hble, hbround⟩ := settled_natCast.mp hb
  have hdelta : MappingTable.delta (b : Number) (a : Number) = (roundInt ((b : Int) - a) : Number) := by
    rw [MappingTable.delta, ← intCast_natCast, ← intCast_natCast, intCast_sub,
      rounded_intCast_of_le (k := 85) (by omega) (by decide)]
  rw [near_natCast, hdelta]
  have hvalue := Numeral.natAbs_value_le (Numeral.ofNumber (roundInt ((b : Int) - a) : Number))
  unfold maxMagnitude at hvalue
  rw [← intCast_natCast a, ← intCast_natCast b, intCast_add_step (by omega) (by omega), intCast_inj]
  constructor
  · intro h
    have hround : roundInt ((b : Int) - a) = (b : Int) - a :=
      roundInt_of_le (Nat.le_trans h (by decide))
    rw [hround, Numeral.value_ofNumber h, show (a : Int) + ((b : Int) - a) = (b : Nat) by omega,
      roundInt_natCast, hbround]
  · intro h
    by_contra hfar
    have hfar := far_of_value (Nat.lt_of_not_le hfar)
    generalize (Numeral.ofNumber (roundInt ((b : Int) - a) : Number)).value = v at h hvalue hfar
    -- rounding moves the sum by less than what the numeral misses
    rcases Int.lt_or_le ((a : Int) + v) 0 with hneg | hnonneg
    · have hpos := roundNat_pos (n := ((a : Int) + v).natAbs) (by omega)
      rw [show (a : Int) + v = -(((a : Int) + v).natAbs : Int) by omega, roundInt_neg,
        roundInt_natCast] at h
      omega
    · obtain ⟨n, hn⟩ := Int.eq_ofNat_of_zero_le hnonneg
      rw [hn, roundInt_natCast] at h
      obtain ⟨hup, hdown⟩ := roundNat_near (n := n) (e := 31) (by omega)
      omega

/-- Naturals of 31 bits are near each other. -/
theorem near_of_le {a b : Nat} (ha : a ≤ maxMagnitude) (hb : b ≤ maxMagnitude) :
    Near (a : Number) (b : Number) := near_natCast.mpr (by omega)

end Number

open Number (Near)

namespace MappingTable

variable {table rest : MappingTable} {m : Mapping} {c : Cursor} {n line : Nat}

/-! ## All steps -/

/-- The generated columns on a line. -/
def columnsOn (line : Nat) (table : MappingTable) : List Number :=
  (table.filter fun m => m.line = (line : Number)).map Mapping.column

/-- The values of a kind. -/
def valuesOf (k : MappingField) (table : MappingTable) : List Number :=
  table.filterMap fun m => m.fields.get? k

/-- Every value is near the one of its kind before it, the first one near 0; generated columns start
over on each line. -/
structure StepsFit (table : MappingTable) : Prop where
  column : ∀ line, (0 :: columnsOn line table).IsChain Near
  running : ∀ k ≠ MappingField.generatedColumn, (0 :: valuesOf k table).IsChain Near

namespace Cursor

/-- The steps between the generated columns on a line fit, from a cursor on. -/
def ColumnsFit (c : Cursor) (table : MappingTable) (line : Nat) : Prop :=
  ((c.enter (line : Number)).column :: columnsOn line table).IsChain Near

/-- The steps between the values of a kind fit, from a cursor on. -/
def ValuesFit (c : Cursor) (table : MappingTable) (k : MappingField) : Prop :=
  (c.get k :: valuesOf k table).IsChain Near

/-- All steps of the entries that follow a cursor fit. -/
structure Reaches (c : Cursor) (table : MappingTable) : Prop where
  column : ∀ line : Nat, c.line ≤ (line : Number) → c.ColumnsFit table line
  running : ∀ k ≠ MappingField.generatedColumn, c.ValuesFit table k

theorem reaches_nil (c : Cursor) : c.Reaches [] where
  column _ _ := List.IsChain.singleton _
  running _ _ := List.IsChain.singleton _

end Cursor

/-- The steps of a table are those from the first cursor on. -/
theorem stepsFit_iff : table.StepsFit ↔ Cursor.Reaches {} table := by
  have hcolumn : ∀ line : Nat, (Cursor.enter {} (line : Number)).column = 0 := by
    intro line
    unfold Cursor.enter
    split <;> rfl
  have hrunning : ∀ k, Cursor.get {} k = 0 := by
    intro k
    cases k <;> rfl
  constructor
  · intro h
    refine ⟨fun line _ => ?_, fun k hk => ?_⟩
    · rw [Cursor.ColumnsFit, hcolumn]
      exact h.column line
    · rw [Cursor.ValuesFit, hrunning]
      exact h.running k hk
  · intro h
    refine ⟨fun line => ?_, fun k hk => ?_⟩
    · rw [← hcolumn line]
      exact h.column line (Number.natCast_le.mpr (Nat.zero_le line))
    · rw [← hrunning k]
      exact h.running k hk

namespace Cursor

/-! ## Generated columns -/

/-- There are no columns on the lines before those of a table. -/
theorem columnsFit_of_lt (hnatural : ∀ m ∈ table, m.Natural)
    (hline : ∀ m ∈ table, line < m.place.line) : c.ColumnsFit table line := by
  have hnone : columnsOn line table = [] := by
    rw [columnsOn, List.filter_eq_nil_iff.mpr, List.map_nil]
    intro m hm
    have hlt := hline m hm
    rw [(hnatural m hm).placed.line, decide_eq_true_eq, Number.natCast_inj]
    omega
  rw [ColumnsFit, hnone]
  exact List.IsChain.singleton _

/-- On the line of an entry, the column of the entry comes next. -/
theorem columnsFit_cons_self (hm : m.Natural) :
    c.ColumnsFit (m :: rest) m.place.line ↔
      Near (c.enter m.line).column m.column ∧
        ((c.enter m.line).after m).ColumnsFit rest m.place.line := by
  have hline := hm.placed.line
  have hself : ((c.enter m.line).after m).enter (m.place.line : Number) =
      (c.enter m.line).after m := by
    rw [enter, if_pos (by rw [line_after, line_enter, hline])]
  have hcolumn : ((c.enter m.line).after m).column = m.column :=
    get_after (c.enter m.line) m .generatedColumn
  have hcons : columnsOn m.place.line (m :: rest) = m.column :: columnsOn m.place.line rest := by
    rw [columnsOn, List.filter_cons_of_pos (by simpa using hline)]
    rfl
  rw [ColumnsFit, ColumnsFit, hself, hcolumn, hcons, List.isChain_cons_cons, ← hline]

/-- On the lines behind an entry, the generated column starts over with it as without it. -/
theorem columnsFit_cons_of_lt (hc : c.line = (n : Number)) (hm : m.Natural)
    (hle : n ≤ m.place.line) (hlt : m.place.line < line) :
    c.ColumnsFit (m :: rest) line ↔ ((c.enter m.line).after m).ColumnsFit rest line := by
  have hbefore : (c.enter (line : Number)).column = 0 := by
    rw [enter, if_neg (by rw [hc, Number.natCast_inj]; omega)]
  have hafter : (((c.enter m.line).after m).enter (line : Number)).column = 0 := by
    rw [enter, if_neg (by rw [line_after, line_enter, hm.placed.line, Number.natCast_inj]; omega)]
  have hother : ¬ m.line = (line : Number) := by
    rw [hm.placed.line, Number.natCast_inj]
    omega
  rw [ColumnsFit, ColumnsFit, hbefore, hafter, columnsOn, columnsOn,
    List.filter_cons_of_neg (by simpa using hother)]

/-! ## Other values -/

theorem valuesFit_cons {k : MappingField} (hk : k ≠ .generatedColumn) :
    c.ValuesFit (m :: rest) k ↔
      (∀ x, m.fields.get? k = some x → Near ((c.enter m.line).get k) x) ∧
        ((c.enter m.line).after m).ValuesFit rest k := by
  have hget : (c.enter m.line).get k = c.get k := by
    rw [get_enter, if_neg fun h => hk h.1]
  rw [ValuesFit, ValuesFit, get_after, hget, valuesOf, List.filterMap_cons]
  cases m.fields.get? k with
  | none => simp [valuesOf]
  | some x => simp [valuesOf]

/-! ## All values -/

/-- **The steps of entries fit if those to the first one do, and those from there on.** -/
theorem reaches_cons (hc : c.line = (n : Number)) (hm : m.Natural)
    (hrest : ∀ m' ∈ rest, m'.Natural) (hle : n ≤ m.place.line)
    (hlater : ∀ m' ∈ rest, m.place.line ≤ m'.place.line) :
    c.Reaches (m :: rest) ↔
      (∀ k x, m.fields.get? k = some x → Near ((c.enter m.line).get k) x) ∧
        ((c.enter m.line).after m).Reaches rest := by
  have hafter : ((c.enter m.line).after m).line = (m.place.line : Number) := by
    rw [line_after, line_enter, hm.placed.line]
  constructor
  · rintro ⟨hcolumn, hrunning⟩
    have hown := (columnsFit_cons_self hm).mp
      (hcolumn m.place.line (by rw [hc]; exact Number.natCast_le.mpr hle))
    refine ⟨fun k x hx => ?_, fun line hline => ?_, fun k hk =>
      ((valuesFit_cons hk).mp (hrunning k hk)).2⟩
    · by_cases hk : k = .generatedColumn
      · subst hk
        rw [← Option.some.inj hx]
        exact hown.1
      · exact ((valuesFit_cons hk).mp (hrunning k hk)).1 x hx
    · rw [hafter, Number.natCast_le] at hline
      rcases Nat.eq_or_lt_of_le hline with rfl | hlt
      · exact hown.2
      · refine (columnsFit_cons_of_lt hc hm hle hlt).mp (hcolumn line ?_)
        rw [hc, Number.natCast_le]
        omega
  · rintro ⟨hfirst, hcolumn, hrunning⟩
    refine ⟨fun line _ => ?_, fun k hk =>
      (valuesFit_cons hk).mpr ⟨fun x hx => hfirst k x hx, hrunning k hk⟩⟩
    rcases Nat.lt_trichotomy line m.place.line with hlt | rfl | hlt
    · apply columnsFit_of_lt (List.forall_mem_cons.mpr ⟨hm, hrest⟩)
      exact List.forall_mem_cons.mpr
        ⟨hlt, fun m' hm' => Nat.lt_of_lt_of_le hlt (hlater m' hm')⟩
    · refine (columnsFit_cons_self hm).mpr ⟨hfirst .generatedColumn _ rfl, hcolumn _ ?_⟩
      rw [hafter]
      exact Number.natCast_le.mpr (Nat.le_refl _)
    · refine (columnsFit_cons_of_lt hc hm hle hlt).mpr (hcolumn line ?_)
      rw [hafter]
      exact Number.natCast_le.mpr (Nat.le_of_lt hlt)

end Cursor

/-! ## Moderate values -/

/-- Numbers of 31 bits are near each other, one after the other. -/
theorem isChain_near_of_le {xs : List Number}
    (h : ∀ x ∈ xs, ∃ n : Nat, n ≤ maxMagnitude ∧ x = (n : Number)) : xs.IsChain Near := by
  apply List.Pairwise.isChain
  apply List.pairwise_of_forall_mem_list
  intro x hx y hy
  obtain ⟨a, ha, rfl⟩ := h x hx
  obtain ⟨b, hb, rfl⟩ := h y hy
  exact Number.near_of_le ha hb

/-- **Between values of 31 bits all steps fit.** -/
theorem stepsFit_of_le (hnatural : ∀ m ∈ table, m.Natural)
    (hle : ∀ m ∈ table, ∀ x ∈ m.fields.toList, x ≤ (maxMagnitude : Number)) : table.StepsFit := by
  have hvalue : ∀ m ∈ table, ∀ k x, m.fields.get? k = some x →
      ∃ n : Nat, n ≤ maxMagnitude ∧ x = (n : Number) := by
    intro m hm k x hx
    obtain ⟨n, rfl⟩ := (hnatural m hm).exists_field hx
    exact ⟨n, Number.natCast_le.mp (hle m hm _ (Fields.mem_toList_iff.mpr ⟨k, hx⟩)), rfl⟩
  refine ⟨fun line => isChain_near_of_le ?_, fun k _ => isChain_near_of_le ?_⟩
  · refine List.forall_mem_cons.mpr ⟨⟨0, Nat.zero_le _, rfl⟩, fun x hx => ?_⟩
    obtain ⟨m, hm, rfl⟩ := List.mem_map.mp hx
    exact hvalue m (List.mem_filter.mp hm).1 .generatedColumn _ rfl
  · refine List.forall_mem_cons.mpr ⟨⟨0, Nat.zero_le _, rfl⟩, fun x hx => ?_⟩
    obtain ⟨m, hm, hx⟩ := List.mem_filterMap.mp hx
    exact hvalue m hm k x hx

end MappingTable

end Provenance
