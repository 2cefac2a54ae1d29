/-
# Rounding of integers

Around an integer the binary64 values are multiples of a unit, which is 1 up to 2^53 and a power of two
with 52 places less than the integer beyond.  An integer is rounded to the nearest multiple, so it is
never moved past a binary64 value, and by half a unit at most.

The main facts:

* `rounded_natCast`, `rounded_intCast_of_le` : what a natural and an integer are rounded to;
* `roundNat_le_of_le`, `le_roundNat_of_le` : rounding does not move past a binary64 value;
* `roundNat_of_exact`, `exact_roundNat` : the binary64 values are those that rounding keeps;
* `two_mul_roundNat_le`, `two_mul_le_roundNat` : rounding moves by half a unit at most.
-/
import Mathlib.Algebra.Ring.Int.Defs
import Mathlib.Algebra.Ring.Nat
import Provenance.Number.Arithmetic

namespace Provenance.Number

/-! ## Quotients -/

section Quotients

variable {n d k : Nat}

/-- A quotient is not rounded past a natural above it. -/
theorem roundHalfEven_le (hd : 0 < d) (h : n ≤ k * d) : roundHalfEven n d ≤ k := by
  have hdiv : d * (n / d) + n % d = n := Nat.div_add_mod n d
  have hle : n / d ≤ k := Nat.div_le_of_le_mul (by rwa [Nat.mul_comm])
  rcases Nat.eq_or_lt_of_le hle with heq | hlt
  · -- nothing is left over, so the quotient is not rounded up
    rw [heq, Nat.mul_comm] at hdiv
    unfold roundHalfEven
    rw [if_pos (by omega)]
    exact hle
  · have hup : roundHalfEven n d ≤ n / d + 1 := by
      unfold roundHalfEven
      dsimp only
      split
      · exact Nat.le_succ _
      · split
        · exact Nat.le_refl _
        · split
          · exact Nat.le_succ _
          · exact Nat.le_refl _
    exact Nat.le_trans hup hlt

/-- A quotient is not rounded past a natural below it. -/
theorem le_roundHalfEven (hd : 0 < d) (h : k * d ≤ n) : k ≤ roundHalfEven n d := by
  have hle : k ≤ n / d := (Nat.le_div_iff_mul_le hd).mpr h
  unfold roundHalfEven
  dsimp only
  split
  · exact hle
  · split
    · exact Nat.le_succ_of_le hle
    · split
      · exact hle
      · exact Nat.le_succ_of_le hle

/-- A quotient is rounded by half at most. -/
theorem roundHalfEven_spec (n : Nat) (hd : 0 < d) :
    2 * (roundHalfEven n d * d) ≤ 2 * n + d ∧ 2 * n ≤ 2 * (roundHalfEven n d * d) + d := by
  have hdiv : n / d * d + n % d = n := Nat.div_add_mod' n d
  have hmod : n % d < d := Nat.mod_lt n hd
  have hsucc : (n / d + 1) * d = n / d * d + d := Nat.succ_mul _ _
  unfold roundHalfEven
  dsimp only
  split
  · omega
  · split
    · omega
    · split <;> omega

end Quotients

/-! ## Naturals -/

/-- The distance between the binary64 values around a natural. -/
def unit (n : Nat) : Nat := 2 ^ (n.log2 - 52)

/-- The binary64 value nearest to a natural, if it is finite. -/
def roundNat (n : Nat) : Nat := roundHalfEven n (unit n) * unit n

/-- A natural is a binary64 value, or too large for one but with as few significant bits. -/
def Exact (n : Nat) : Prop := ∃ k e, k ≤ exactLimit ∧ n = k * 2 ^ e

variable {n s : Nat}

theorem unit_pos (n : Nat) : 0 < unit n := Nat.two_pow_pos _

theorem exact_of_le (h : n ≤ exactLimit) : Exact n := ⟨n, 0, h, by rw [Nat.pow_zero, Nat.mul_one]⟩

theorem exact_two_pow (e : Nat) : Exact (2 ^ e) := ⟨1, e, by decide, (Nat.one_mul _).symm⟩

/-- Beyond 2^53 the first power of two up to a natural has 2^52 units. -/
theorem two_pow_mul_unit (h : 0 < n.log2 - 52) : 2 ^ 52 * unit n = 2 ^ n.log2 := by
  rw [unit, ← Nat.pow_add]
  congr 1
  omega

/-- A natural has less than 2^53 units. -/
theorem lt_mul_unit (n : Nat) : n < exactLimit * unit n := by
  have hpow : exactLimit * unit n = 2 ^ (53 + (n.log2 - 52)) := (Nat.pow_add 2 53 _).symm
  rw [hpow]
  exact Nat.lt_of_lt_of_le Nat.lt_log2_self (Nat.pow_le_pow_right (by decide) (by omega))

/-- A binary64 value is a multiple of the unit of a natural, or at most the first power of two up to
it. -/
theorem Exact.multiple_or_le (hs : Exact s) (n : Nat) :
    (∃ k, s = k * unit n) ∨ 0 < n.log2 - 52 ∧ s ≤ 2 ^ 52 * unit n := by
  obtain ⟨k, e, hk, rfl⟩ := hs
  by_cases he : n.log2 - 52 ≤ e
  · left
    refine ⟨k * 2 ^ (e - (n.log2 - 52)), ?_⟩
    rw [unit, Nat.mul_assoc, ← Nat.pow_add, Nat.sub_add_cancel he]
  · right
    refine ⟨by omega, ?_⟩
    calc k * 2 ^ e ≤ 2 ^ 53 * 2 ^ e := Nat.mul_le_mul_right _ hk
      _ = 2 ^ 52 * 2 ^ (e + 1) := by
        rw [← Nat.pow_add, ← Nat.pow_add, Nat.add_comm e 1, ← Nat.add_assoc]
      _ ≤ 2 ^ 52 * unit n :=
        Nat.mul_le_mul_left _ (Nat.pow_le_pow_right (by decide) (by omega))

/-- **Rounding does not move past a binary64 value above.** -/
theorem roundNat_le_of_le (hs : Exact s) (h : n ≤ s) : roundNat n ≤ s := by
  rcases hs.multiple_or_le n with ⟨k, rfl⟩ | ⟨hlog, hle⟩
  · exact Nat.mul_le_mul_right _ (roundHalfEven_le (unit_pos n) h)
  · have hself : 2 ^ 52 * unit n ≤ n := by
      rw [two_pow_mul_unit hlog]
      exact Nat.log2_self_le (by rintro rfl; revert hlog; decide)
    have hround := Nat.mul_le_mul_right (unit n) (roundHalfEven_le (unit_pos n) (Nat.le_trans h hle))
    exact Nat.le_trans hround (Nat.le_trans hself h)

/-- **Rounding does not move past a binary64 value below.** -/
theorem le_roundNat_of_le (hs : Exact s) (h : s ≤ n) : s ≤ roundNat n := by
  rcases hs.multiple_or_le n with ⟨k, rfl⟩ | ⟨hlog, hle⟩
  · exact Nat.mul_le_mul_right _ (le_roundHalfEven (unit_pos n) h)
  · have hself : 2 ^ 52 * unit n ≤ n := by
      rw [two_pow_mul_unit hlog]
      exact Nat.log2_self_le (by rintro rfl; revert hlog; decide)
    exact Nat.le_trans hle (Nat.mul_le_mul_right _ (le_roundHalfEven (unit_pos n) hself))

/-- Rounding keeps the binary64 values. -/
theorem roundNat_of_exact (h : Exact n) : roundNat n = n :=
  Nat.le_antisymm (roundNat_le_of_le h (Nat.le_refl n)) (le_roundNat_of_le h (Nat.le_refl n))

theorem roundNat_of_le (h : n ≤ exactLimit) : roundNat n = n := roundNat_of_exact (exact_of_le h)

/-- Rounding gives binary64 values. -/
theorem exact_roundNat (n : Nat) : Exact (roundNat n) :=
  ⟨_, _, roundHalfEven_le (unit_pos n) (Nat.le_of_lt (lt_mul_unit n)), rfl⟩

/-- Rounding moves up by half a unit at most. -/
theorem two_mul_roundNat_le (n : Nat) : 2 * roundNat n ≤ 2 * n + unit n :=
  (roundHalfEven_spec n (unit_pos n)).1

/-- Rounding moves down by half a unit at most. -/
theorem two_mul_le_roundNat (n : Nat) : 2 * n ≤ 2 * roundNat n + unit n :=
  (roundHalfEven_spec n (unit_pos n)).2

/-- The units of naturals below a power of two. -/
theorem unit_le {e : Nat} (h : n < 2 ^ (e + 53)) : unit n ≤ 2 ^ e := by
  have hlog : n.log2 < e + 53 := by
    rcases Nat.eq_zero_or_pos n with rfl | hpos
    · simp
    · exact (Nat.log2_lt (by omega)).mpr h
  exact Nat.pow_le_pow_right (by decide) (by omega)

/-- Beyond a power of two rounding still gives it, up to half of the next unit. -/
theorem roundNat_le_two_pow {e : Nat} (h : n < 2 ^ (e + 53) + 2 ^ e) :
    roundNat n ≤ 2 ^ (e + 53) := by
  by_cases hle : n ≤ 2 ^ (e + 53)
  · exact roundNat_le_of_le (exact_two_pow _) hle
  · have hn : 2 ^ (e + 53) < n := Nat.lt_of_not_le hle
    have hpow : 2 ^ e ≤ 2 ^ (e + 53) := Nat.pow_le_pow_right (by decide) (by omega)
    have hlog : n.log2 = e + 53 := by
      refine Nat.le_antisymm (Nat.le_of_lt_succ ((Nat.log2_lt (by omega)).mpr ?_))
        ((Nat.le_log2 (by omega)).mpr (Nat.le_of_lt hn))
      rw [Nat.pow_succ]
      omega
    have hunit : unit n = 2 * 2 ^ e := by
      rw [unit, hlog, show e + 53 - 52 = e + 1 by omega, Nat.pow_succ, Nat.mul_comm]
    have hlimit : 2 ^ (e + 53) = 2 ^ 52 * unit n := by
      rw [hunit, Nat.pow_add]
      omega
    -- the rounded value is a multiple of the unit and less than a unit too large
    have hround := two_mul_roundNat_le n
    have hlt : roundHalfEven n (unit n) * unit n < (2 ^ 52 + 1) * unit n := by
      rw [Nat.succ_mul, ← hlimit]
      show roundNat n < _
      omega
    rw [hlimit]
    exact Nat.mul_le_mul_right _ (Nat.le_of_lt_succ (Nat.lt_of_mul_lt_mul_right hlt))

/-- Up to there rounding moves by less than half of that unit. -/
theorem roundNat_near {e : Nat} (h : n < 2 ^ (e + 53) + 2 ^ e) :
    roundNat n < n + 2 ^ e ∧ n < roundNat n + 2 ^ e := by
  have hpos : 0 < 2 ^ e := Nat.two_pow_pos e
  by_cases hlt : n < 2 ^ (e + 53)
  · have hunit := unit_le hlt
    have hup := two_mul_roundNat_le n
    have hdown := two_mul_le_roundNat n
    omega
  · have hle := roundNat_le_two_pow h
    have hge := le_roundNat_of_le (exact_two_pow _) (Nat.le_of_not_lt hlt)
    omega

/-- What is not zero is not rounded to zero. -/
theorem roundNat_pos (h : 0 < n) : 0 < roundNat n :=
  le_roundNat_of_le (exact_of_le (n := 1) (by decide)) h

/-- The unit of the spacing around a natural, and what the natural is rounded to. -/
theorem roundMagnitude_one (h : exactLimit < n) :
    roundMagnitude n 1 = (roundHalfEven n (unit n), ((n.log2 - 52 : Nat) : Int)) := by
  have hlog : 53 ≤ n.log2 := (Nat.le_log2 (by omega)).mpr (Nat.le_of_lt h)
  have hself : 2 ^ n.log2 ≤ n := Nat.log2_self_le (by omega)
  have hspacing : spacing n 1 = ((n.log2 - 52 : Nat) : Int) := by
    have hone : Nat.log2 1 = 0 := by decide
    have htop : ((n.log2 : Nat) : Int) - ((0 : Nat) : Int) = (n.log2 : Int) := Int.sub_zero _
    simp only [spacing, hone, htop, twoPow, Nat.one_mul, Int.toNat_natCast, Int.natCast_nonneg,
      if_true, Nat.pow_eq, hself]
    omega
  rw [roundMagnitude, hspacing, if_pos (Int.natCast_nonneg _), Int.toNat_natCast, twoPow, Nat.one_mul]
  rfl

theorem lt_twoPow {k e : Nat} (h : n ≤ 2 ^ k) (hk : k < e) : n < twoPow e :=
  Nat.lt_of_le_of_lt h (Nat.pow_lt_pow_right (by decide) hk)

/-- **What a natural is rounded to.** -/
theorem rounded_natCast (n : Nat) :
    (n : Number).rounded = if twoPow 1024 ≤ roundNat n then posInf else (roundNat n : Number) := by
  have hden : ((n : Int) : Rat).den = 1 := Rat.den_intCast _
  have hnum : ((n : Int) : Rat).num = n := Rat.num_intCast _
  by_cases hle : n ≤ exactLimit
  · have hlt : n < twoPow 1024 := lt_twoPow (k := 53) hle (by decide)
    rw [rounded_natCast_of_le hle, roundNat_of_le hle, if_neg (Nat.not_le.mpr hlt)]
  · show nearest ((n : Int) : Rat) = _
    unfold nearest
    rw [hden, hnum, if_neg (fun h => hle h.2), Int.natAbs_natCast,
      roundMagnitude_one (Nat.lt_of_not_le hle)]
    have hunit : twoPow ((n.log2 - 52 : Nat) : Int).toNat = unit n := by
      rw [Int.toNat_natCast]
      rfl
    simp only [hunit, Int.natCast_nonneg, true_and, if_true, if_neg (show ¬ (n : Int) < 0 by omega)]
    rfl

/-! ## Integers -/

/-- Rounding does not depend on the sign. -/
theorem nearest_neg (q : Rat) : nearest (-q) = -nearest q := by
  have hneg : ∀ x y : Rat, x = -y → finite x = -finite y := fun x y h => congrArg finite h
  unfold nearest
  rw [Rat.neg_den, Rat.neg_num, Int.natAbs_neg]
  split
  · rfl
  · rename_i hlarge
    have hnum : q.num ≠ 0 := by
      intro hzero
      obtain rfl := Rat.num_eq_zero.mp hzero
      exact hlarge (by decide)
    dsimp only
    split
    · by_cases hsign : q.num < 0
      · rw [if_neg (by omega), if_pos hsign]
        rfl
      · rw [if_pos (by omega), if_neg hsign]
        rfl
    · apply hneg
      by_cases hsign : q.num < 0
      · rw [if_neg (by omega), if_pos hsign, Rat.neg_neg]
      · rw [if_pos (by omega), if_neg hsign]

/-- What is not zero is rounded to infinity or to an integer that is not zero, of its sign. -/
theorem rounded_intCast_cases {i : Int} (h : i ≠ 0) :
    0 < i ∧ ((i : Number).rounded = posInf ∨ ∃ m : Nat, 0 < m ∧ (i : Number).rounded = m) ∨
      i < 0 ∧ ((i : Number).rounded = negInf ∨
        ∃ m : Nat, 0 < m ∧ (i : Number).rounded = ((-m : Int) : Number)) := by
  have hnat : ∀ n : Nat, 0 < n →
      (n : Number).rounded = posInf ∨ ∃ m : Nat, 0 < m ∧ (n : Number).rounded = m := by
    intro n hn
    rw [rounded_natCast]
    split
    · exact Or.inl rfl
    · exact Or.inr ⟨_, roundNat_pos hn, rfl⟩
  rcases Int.natAbs_eq i with hi | hi
  · rw [hi]
    exact Or.inl ⟨by omega, hnat _ (by omega)⟩
  · rw [hi, ← neg_intCast]
    refine Or.inr ⟨by omega, ?_⟩
    rw [show (-((i.natAbs : Int) : Number)).rounded = -((i.natAbs : Nat) : Number).rounded from
      nearest_neg _]
    rcases hnat i.natAbs (by omega) with hround | ⟨m, hm, hround⟩
    · exact Or.inl (by rw [hround]; rfl)
    · exact Or.inr ⟨m, hm, by rw [hround]; exact neg_intCast m⟩

/-- Only zero is rounded to zero. -/
@[simp] theorem rounded_intCast_eq_zero {i : Int} :
    (i : Number).rounded = ((0 : Nat) : Number) ↔ i = 0 := by
  constructor
  · intro h
    refine Decidable.byContradiction fun hi => ?_
    rcases rounded_intCast_cases hi with ⟨-, hround | ⟨m, hm, hround⟩⟩ |
      ⟨-, hround | ⟨m, hm, hround⟩⟩
    · rw [h] at hround
      cases hround
    · rw [h, natCast_inj] at hround
      omega
    · rw [h] at hround
      cases hround
    · rw [h, ← intCast_natCast, intCast_inj] at hround
      omega
  · rintro rfl
    exact rounded_intCast 0 (by decide)

/-- The sign is not rounded away. -/
@[simp] theorem rounded_intCast_lt_zero {i : Int} :
    (i : Number).rounded < ((0 : Nat) : Number) ↔ i < 0 := by
  by_cases hi : i = 0
  · subst hi
    rw [rounded_intCast_eq_zero.mpr rfl, natCast_lt]
    exact iff_of_false (Nat.lt_irrefl 0) (Int.lt_irrefl 0)
  · rcases rounded_intCast_cases hi with ⟨hpos, hround | ⟨m, hm, hround⟩⟩ |
      ⟨hneg, hround | ⟨m, hm, hround⟩⟩
    · rw [hround]
      exact iff_of_false (fun h => nomatch h) (by omega)
    · rw [hround, natCast_lt]
      omega
    · rw [hround]
      exact iff_of_true rfl hneg
    · rw [hround, ← intCast_natCast, intCast_lt]
      omega

/-- The binary64 value nearest to an integer, if it is finite. -/
def roundInt (i : Int) : Int := i.sign * roundNat i.natAbs

@[simp] theorem roundInt_natCast (n : Nat) : roundInt n = roundNat n := by
  rcases Nat.eq_zero_or_pos n with rfl | hn
  · rfl
  · rw [roundInt, Int.sign_natCast_of_ne_zero (by omega), Int.one_mul, Int.natAbs_natCast]

@[simp] theorem roundInt_neg (i : Int) : roundInt (-i) = -roundInt i := by
  rw [roundInt, roundInt, Int.sign_neg, Int.natAbs_neg, Int.neg_mul]

/-- **What an integer of moderate magnitude is rounded to.** -/
theorem rounded_intCast_of_le {i : Int} {k : Nat} (h : i.natAbs ≤ 2 ^ k) (hk : k < 1024) :
    (i : Number).rounded = (roundInt i : Number) := by
  have hround : ∀ n : Nat, n ≤ 2 ^ k → (n : Number).rounded = (roundNat n : Number) := by
    intro n hn
    have hlt := lt_twoPow (roundNat_le_of_le (exact_two_pow k) hn) hk
    rw [rounded_natCast, if_neg (Nat.not_le.mpr hlt)]
  rcases Int.natAbs_eq i with hi | hi
  · rw [hi, intCast_natCast, hround _ h, roundInt_natCast]
    rfl
  · rw [hi, roundInt_neg, roundInt_natCast, ← neg_intCast, ← neg_intCast, intCast_natCast,
      intCast_natCast, ← hround _ h]
    exact nearest_neg _

end Provenance.Number
