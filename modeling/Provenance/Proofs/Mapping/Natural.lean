/-
# Tables of naturals

The entries of a well-formed table have naturals only.  Such entries stand at places, and there is
one way to put them in order that keeps the order of the entries at one place.

The main facts:

* `natural_iff_nonneg` : an entry of integers has naturals only if none of them is negative;
* `stablySorted_iff` : sorting is the one way to put a table in order that keeps the order of the
  entries at each place.
-/
import Provenance.Proofs.Mapping.Decode

namespace Provenance

namespace Number

theorem intCast_nonneg_iff {i : Int} : 0 ≤ (i : Number) ↔ ¬ (i : Number) < 0 := by
  show ((0 : Int) : Number) ≤ (i : Number) ↔ ¬ (i : Number) < ((0 : Int) : Number)
  rw [intCast_le, intCast_lt, Int.not_lt]

theorem exists_natCast_iff {x : Number} :
    (∃ n : Nat, x = (n : Number)) ↔ x.toNat?.isSome = true := by
  constructor
  · rintro ⟨n, rfl⟩
    rw [toNat?_natCast]
    rfl
  · intro h
    obtain ⟨n, hn⟩ := Option.isSome_iff_exists.mp h
    exact ⟨n, eq_natCast_of_toNat? hn⟩

end Number

namespace Mapping

variable {m : Mapping}

/-- All numbers of an entry are naturals. -/
def Natural (m : Mapping) : Prop := ∀ x ∈ m.line :: m.fields.toList, ∃ n : Nat, x = (n : Number)

instance (m : Mapping) : Decidable m.Natural :=
  decidable_of_iff (∀ x ∈ m.line :: m.fields.toList, x.toNat?.isSome = true)
    (forall₂_congr fun _ _ => Number.exists_natCast_iff.symm)

theorem Natural.exists_line (h : m.Natural) : ∃ n : Nat, m.line = (n : Number) :=
  h m.line List.mem_cons_self

theorem Natural.exists_field (h : m.Natural) {k : MappingField} {x : Number}
    (hx : m.fields.get? k = some x) : ∃ n : Nat, x = (n : Number) :=
  h x (List.mem_cons_of_mem _ (Fields.mem_toList_iff.mpr ⟨k, hx⟩))

/-- An entry of naturals stands at a place. -/
theorem Natural.placed (h : m.Natural) : m.Placed := by
  obtain ⟨line, hline⟩ := h.exists_line
  obtain ⟨column, hcolumn⟩ : ∃ n : Nat, m.column = (n : Number) :=
    h.exists_field (k := .generatedColumn) rfl
  exact ⟨by simp [place, hline], by simp [place, hcolumn]⟩

/-- **An entry of integers has naturals only if none of them is negative.** -/
theorem natural_iff_nonneg (hline : ∃ line : Nat, m.line = (line : Number))
    (hfields : ∀ x ∈ m.fields.toList, ∃ i : Int, x = (i : Number)) :
    m.Natural ↔ ∀ x ∈ m.fields.toList, 0 ≤ x := by
  constructor
  · intro h x hx
    obtain ⟨n, rfl⟩ := h x (List.mem_cons_of_mem _ hx)
    exact Number.natCast_le.mpr (Nat.zero_le n)
  · intro h
    refine List.forall_mem_cons.mpr ⟨hline, fun x hx => ?_⟩
    obtain ⟨i, rfl⟩ := hfields x hx
    have hi : 0 ≤ i := Number.intCast_le.mp (h _ hx)
    exact ⟨i.toNat, by rw [← Number.intCast_natCast, Int.toNat_of_nonneg hi]⟩

end Mapping

namespace MappingTable

open Text (Position)

/-! ## Stable sorting -/

/-- A table has the given entries in order, and keeps the order of those at each place. -/
structure StablySorted (entries table : MappingTable) : Prop where
  sorted : table.Sorted
  stable : ∀ p : Position, (table.filter fun m => m.place = p) = entries.filter fun m => m.place = p

variable {entries table : MappingTable}

theorem placed_of_natural (h : ∀ m ∈ table, m.Natural) : table.Placed := fun m hm => (h m hm).placed

theorem stablySorted_sort (hp : entries.Placed) : StablySorted entries (sort entries) where
  sorted := sort_sorted hp
  stable p := by
    refine filter_sort hp _ fun a b ha hb => ?_
    rw [of_decide_eq_true ha, of_decide_eq_true hb]

/-- **Sorting is the one way to put entries in order that keeps the order of those at each place.**
-/
theorem stablySorted_iff (hp : entries.Placed) :
    StablySorted entries table ↔ sort entries = table := by
  constructor
  · intro h
    have hsort := stablySorted_sort hp
    refine eq_of_pairwise_of_filter_eq Mapping.place (fun p q => p.le q = true) (fun p => ?_)
      (fun p q => ?_) hsort.sorted h.sorted fun p => (hsort.stable p).trans (h.stable p).symm
    · rw [Position.le_iff]
      omega
    · rw [Position.le_iff, Position.le_iff, Position.ext_iff']
      omega
  · rintro rfl
    exact stablySorted_sort hp

end MappingTable

end Provenance
