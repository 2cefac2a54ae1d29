/-
# Binary64 fractions

The binary64 values from 0 to 2^53 are the naturals up to 2^53 over powers of two.  The distance from an
integer to a greater one of them is one of them, too: it has no more places behind the point, and is not
greater.

The main facts:

* `nearest_div_two_pow` : rounding keeps binary64 fractions;
* `natCast_add_sub_of_fraction` : going back by an integer and forth again leads to the same value.
-/
import Mathlib.Algebra.Order.Field.Rat
import Mathlib.Data.Nat.Prime.Basic
import Mathlib.Tactic.FieldSimp
import Mathlib.Tactic.Positivity
import Mathlib.Tactic.Ring
import Provenance.Number.Arithmetic

namespace Provenance.Number

/-- A binary64 value from 0 to 2^53. -/
def Fraction (x : Number) : Prop :=
  ∃ k e : Nat, k ≤ exactLimit ∧ e ≤ 1074 ∧ x = finite ((k : Rat) / 2 ^ e)

theorem fraction_natCast {n : Nat} (h : n ≤ exactLimit) : Fraction (n : Number) :=
  ⟨n, 0, h, Nat.zero_le _, by rw [pow_zero, div_one]; rfl⟩

/-- Around a quotient by a power of two with a short numerator the spacing is at most the quotient's
unit. -/
theorem le_neg_spacing {n j : Nat} (hn : n ≠ 0) (hlt : n < 2 ^ 53) (hj : j ≤ 1074) :
    (j : Int) ≤ -spacing n (2 ^ j) := by
  have hlog : n.log2 < 53 := (Nat.log2_lt hn).mpr hlt
  have hself : 2 ^ n.log2 ≤ n := Nat.log2_self_le hn
  have hreached : if 0 ≤ (n.log2 : Int) - (j : Int) then
      2 ^ j * twoPow ((n.log2 : Int) - (j : Int)).toNat ≤ n
      else 2 ^ j ≤ n * twoPow (-((n.log2 : Int) - (j : Int))).toNat := by
    unfold twoPow
    split
    · rw [Nat.pow_eq, ← pow_add, show j + ((n.log2 : Int) - (j : Int)).toNat = n.log2 by omega]
      exact hself
    · calc 2 ^ j = 2 ^ (n.log2 + (-((n.log2 : Int) - (j : Int))).toNat) := by congr 1; omega
        _ = 2 ^ n.log2 * 2 ^ (-((n.log2 : Int) - (j : Int))).toNat := pow_add ..
        _ ≤ _ := Nat.mul_le_mul_right _ hself
  unfold spacing
  simp only [Nat.log2_two_pow, hreached, if_true]
  omega

/-- The numerator of a fraction in lowest terms over an even denominator is odd. -/
theorem not_two_dvd_num {q : Rat} (h : 2 ∣ q.den) : ¬ 2 ∣ q.num.natAbs := by
  intro hnum
  have hone := Nat.dvd_gcd hnum h
  rw [q.reduced] at hone
  omega

/-- A fraction in lowest terms whose denominator is a power of two is kept. -/
theorem nearest_of_den {q : Rat} {j : Nat} (hq : 0 ≤ q) (hden : q.den = 2 ^ j) (hj : j ≤ 1074)
    (hnum : q.num.natAbs ≤ exactLimit) : nearest q = finite q := by
  unfold nearest
  split
  · rfl
  · rename_i hnot
    have hjpos : j ≠ 0 := by
      rintro rfl
      exact hnot ⟨hden, hnum⟩
    have hodd : ¬ 2 ∣ q.num.natAbs := not_two_dvd_num (hden ▸ dvd_pow_self 2 hjpos)
    have hnonneg : 0 ≤ q.num := Rat.num_nonneg.mpr hq
    have hquotient : q = (q.num.natAbs : Rat) / 2 ^ j := by
      have hself := Rat.num_div_den q
      rw [hden, ← Int.natAbs_of_nonneg hnonneg, Int.cast_natCast, Nat.cast_pow] at hself
      exact hself.symm
    generalize q.num.natAbs = n at hnum hodd hquotient ⊢
    have hlt : n < 2 ^ 53 := by
      refine Nat.lt_of_le_of_ne hnum ?_
      rintro rfl
      exact hodd (dvd_pow_self 2 (by decide))
    have hpos : n ≠ 0 := by
      rintro rfl
      exact hodd (Nat.dvd_zero 2)
    have hle := le_neg_spacing hpos hlt hj
    rw [roundMagnitude, hden]
    generalize spacing n (2 ^ j) = s at hle ⊢
    -- the numerator is a multiple of the spacing
    obtain ⟨i, hi⟩ : ∃ i : Nat, (-s).toNat = j + i := ⟨(-s).toNat - j, by omega⟩
    simp only [show ¬ 0 ≤ s by omega, show ¬ q.num < 0 by omega, false_and, if_false, hi, twoPow,
      Nat.pow_eq]
    rw [pow_add, Nat.mul_comm (2 ^ j), ← Nat.mul_assoc, roundHalfEven_mul _ (Nat.two_pow_pos j),
      Rat.mkRat_eq_div, hquotient]
    congr 1
    push_cast
    field_simp

/-- **Rounding keeps binary64 fractions.** -/
theorem nearest_div_two_pow {k e : Nat} (hk : k ≤ exactLimit) (he : e ≤ 1074) :
    nearest ((k : Rat) / 2 ^ e) = finite ((k : Rat) / 2 ^ e) := by
  have hpow : ((2 ^ e : Nat) : Int) ≠ 0 := by positivity
  have hdivInt : (k : Rat) / 2 ^ e = Rat.divInt k ((2 ^ e : Nat) : Int) := by
    rw [Rat.divInt_eq_div]
    push_cast
    rfl
  obtain ⟨j, hj, hden⟩ : ∃ j ≤ e, ((k : Rat) / 2 ^ e).den = 2 ^ j := by
    have hdvd : ((k : Rat) / 2 ^ e).den ∣ 2 ^ e := by
      rw [hdivInt]
      exact Int.natCast_dvd_natCast.mp (Rat.den_dvd k _)
    exact (Nat.dvd_prime_pow Nat.prime_two).mp hdvd
  refine nearest_of_den (by positivity) hden (Nat.le_trans hj he) ?_
  have hdvd : ((k : Rat) / 2 ^ e).num.natAbs ∣ k := by
    rw [hdivInt]
    exact Int.natCast_dvd_natCast.mp (Int.natAbs_dvd.mpr (Rat.num_dvd k hpow))
  rcases Nat.eq_zero_or_pos k with rfl | hpos
  · simp
  · exact Nat.le_trans (Nat.le_of_dvd hpos hdvd) hk

/-- **Going back by an integer and forth again** leads to the same binary64 value up to 2^53. -/
theorem natCast_add_sub_of_fraction {x : Number} (hx : x.Fraction) {n : Nat} (h : (n : Number) ≤ x) :
    (n : Number) + (x - (n : Number)) = x := by
  obtain ⟨k, e, hk, he, rfl⟩ := hx
  have hpos : (0 : Rat) < 2 ^ e := by positivity
  have hle : n * 2 ^ e ≤ k := by
    have hle : ((n : Int) : Rat) ≤ (k : Rat) / 2 ^ e := of_decide_eq_true h
    rw [le_div_iff₀ hpos] at hle
    exact_mod_cast hle
  have hback : (finite ((k : Rat) / 2 ^ e) : Number) - (n : Number) =
      finite (((k - n * 2 ^ e : Nat) : Rat) / 2 ^ e) := by
    show nearest ((k : Rat) / 2 ^ e + -((n : Int) : Rat)) = _
    rw [← nearest_div_two_pow (Nat.le_trans (Nat.sub_le _ _) hk) he]
    congr 1
    push_cast [Nat.cast_sub hle]
    field_simp
    ring
  rw [hback]
  show nearest (((n : Int) : Rat) + ((k - n * 2 ^ e : Nat) : Rat) / 2 ^ e) = _
  rw [← nearest_div_two_pow hk he]
  congr 1
  push_cast [Nat.cast_sub hle]
  field_simp
  ring

end Provenance.Number
