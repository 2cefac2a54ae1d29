/-
# Values reached by steps

Values are reached from zero by steps of at most 31 bits, each rounded.  All of them are binary64 values,
and no number of steps leads beyond 2^84: there a step is less than half of the distance to the next
value.

The main facts:

* `Settled.add_step` : a step does not lead beyond 2^84;
* `Settled.not_add_lt` : a step forward does not lead back;
* `Reached.add` : what steps lead to without going below zero;
* `settled_sum` : sums of steps are integers, and binary64 values.
-/
import Mathlib.Data.List.Induction
import Provenance.Proofs.Number.Counts

namespace Provenance.Number

variable {x y : Number} {i j : Int} {n : Nat}

/-! ## Rounded integers -/

theorem natAbs_roundInt (i : Int) : (roundInt i).natAbs = roundNat i.natAbs := by
  rcases Int.natAbs_eq i with hi | hi
  · rw [hi, roundInt_natCast, Int.natAbs_natCast, Int.natAbs_natCast]
  · rw [hi, roundInt_neg, roundInt_natCast, Int.natAbs_neg, Int.natAbs_neg, Int.natAbs_natCast,
      Int.natAbs_natCast]

/-- Rounding keeps what integers are rounded to. -/
theorem roundInt_roundInt (i : Int) : roundInt (roundInt i) = roundInt i := by
  rcases Int.natAbs_eq i with hi | hi <;>
    rw [hi] <;> simp only [roundInt_neg, roundInt_natCast, roundNat_of_exact (exact_roundNat _)]

theorem roundInt_of_le (h : i.natAbs ≤ exactLimit) : roundInt i = i := by
  rcases Int.natAbs_eq i with hi | hi
  · rw [hi, roundInt_natCast, roundNat_of_le h]
  · rw [hi, roundInt_neg, roundInt_natCast, roundNat_of_le h]

/-- Rounding does not move past an integer below that it keeps. -/
theorem le_roundInt_of_le (hi : roundInt i = i) (h : i ≤ j) : i ≤ roundInt j := by
  have hexact : Exact i.natAbs := by
    rw [← hi, natAbs_roundInt]
    exact exact_roundNat _
  rcases Int.lt_or_le j 0 with hj | hj
  · have hround := roundNat_le_of_le hexact (n := j.natAbs) (by omega)
    rw [show j = -(j.natAbs : Int) by omega, roundInt_neg, roundInt_natCast]
    omega
  · obtain ⟨n, rfl⟩ := Int.eq_ofNat_of_zero_le hj
    rw [roundInt_natCast]
    rcases Int.lt_or_le i 0 with hi | hi
    · omega
    · have hround := le_roundNat_of_le hexact (n := n) (by omega)
      omega

/-! ## One step -/

/-- An integer that is a binary64 value, and not beyond 2^84. -/
def Settled (x : Number) : Prop := ∃ k : Int, k.natAbs ≤ 2 ^ 84 ∧ roundInt k = k ∧ x = (k : Number)

theorem settled_intCast : Settled (i : Number) ↔ i.natAbs ≤ 2 ^ 84 ∧ roundInt i = i := by
  constructor
  · rintro ⟨k, hk, hround, h⟩
    rw [intCast_inj.mp h]
    exact ⟨hk, hround⟩
  · rintro ⟨hi, hround⟩
    exact ⟨i, hi, hround, rfl⟩

theorem settled_natCast : Settled (n : Number) ↔ n ≤ 2 ^ 84 ∧ roundNat n = n := by
  rw [← intCast_natCast, settled_intCast, Int.natAbs_natCast, roundInt_natCast, Int.natCast_inj]

theorem settled_of_le (h : n ≤ exactLimit) : Settled (n : Number) :=
  settled_natCast.mpr ⟨Nat.le_trans h (by decide), roundNat_of_le h⟩

/-- Rounding keeps settled values. -/
theorem Settled.rounded (h : x.Settled) : x.rounded = x := by
  obtain ⟨k, hk, hround, rfl⟩ := h
  rw [rounded_intCast_of_le hk (by decide), hround]

theorem intCast_add_step (hi : i.natAbs ≤ 2 ^ 84) (hj : j.natAbs < 2 ^ 31) :
    (i : Number) + (j : Number) = (roundInt (i + j) : Number) := by
  rw [intCast_add, rounded_intCast_of_le (k := 85) (by omega) (by decide)]

/-- **A step does not lead beyond 2^84.** -/
theorem Settled.add_step (h : x.Settled) (hi : i.natAbs < 2 ^ 31) : (x + (i : Number)).Settled := by
  obtain ⟨k, hk, -, rfl⟩ := h
  rw [intCast_add_step hk hi, settled_intCast, natAbs_roundInt]
  exact ⟨roundNat_le_two_pow (e := 31) (by omega), roundInt_roundInt _⟩

/-- **A step forward does not lead back.** -/
theorem Settled.not_add_lt (h : x.Settled) (hi : i.natAbs < 2 ^ 31) (hnonneg : 0 ≤ i) :
    ¬ x + (i : Number) < x := by
  obtain ⟨k, hk, hround, rfl⟩ := h
  rw [intCast_add_step hk hi, intCast_lt, Int.not_lt]
  exact le_roundInt_of_le hround (by omega)

/-! ## Steps that do not go below zero -/

/-- The value of a step: an integer of 31 bits, or none. -/
def Step (x : Number) : Prop := x = nan ∨ ∃ i : Int, i.natAbs < 2 ^ 31 ∧ x = (i : Number)

/-- What steps may lead to from zero, without going below it. -/
def Reached (x : Number) : Prop := x = nan ∨ ∃ n : Nat, Settled (n : Number) ∧ x = (n : Number)

theorem reached_zero : Reached 0 := Or.inr ⟨0, settled_of_le (Nat.zero_le _), rfl⟩

theorem Reached.count (h : x.Reached) : x.Count := by
  rcases h with rfl | ⟨n, -, rfl⟩
  · exact Or.inl rfl
  · exact Count.natCast n

theorem Reached.settled (h : Reached (n : Number)) : Settled (n : Number) := by
  rcases h with hnan | ⟨m, hm, hn⟩
  · cases hnan
  · rwa [hn]

/-- **What a step leads to** is reached by steps, if it is not below zero. -/
theorem Reached.add (hx : x.Reached) (hy : y.Step) (h : ¬ x + y < 0) : (x + y).Reached := by
  rcases hx with rfl | ⟨n, hn, rfl⟩
  · exact Or.inl (nan_add y)
  · rcases hy with rfl | ⟨i, hi, rfl⟩
    · exact Or.inl (add_nan _)
    · obtain ⟨k, hk, hround, hsum⟩ := hn.add_step hi
      rw [hsum] at h ⊢
      obtain ⟨m, rfl⟩ : ∃ m : Nat, k = m :=
        Int.eq_ofNat_of_zero_le (Int.not_lt.mp fun hlt => h (intCast_lt.mpr hlt))
      exact Or.inr ⟨m, ⟨_, hk, hround, rfl⟩, rfl⟩

/-! ## Sums of steps -/

/-- The sum of integers that are added one after the other. -/
def sum (xs : List Int) : Number := xs.foldl (fun (x : Number) (i : Int) => x + (i : Number)) 0

/-- The exact sum of integers. -/
def exactSum (xs : List Int) : Number := (xs.sum : Number)

variable {xs : List Int}

theorem sum_concat (xs : List Int) (i : Int) : sum (xs ++ [i]) = sum xs + (i : Number) := by
  rw [sum, List.foldl_append]
  rfl

theorem exactSum_concat (xs : List Int) (i : Int) :
    (exactSum xs + (i : Number)) = (exactSum (xs ++ [i])).rounded := by
  rw [exactSum, exactSum, intCast_add, List.sum_append, List.sum_singleton]

/-- **Sums of steps are integers, and binary64 values.** -/
theorem settled_sum (h : ∀ i ∈ xs, i.natAbs < 2 ^ 31) : (sum xs).Settled := by
  induction xs using List.reverseRecOn with
  | nil => exact settled_of_le (n := 0) (Nat.zero_le _)
  | append_singleton xs i ih =>
    obtain ⟨hxs, hi⟩ := List.forall_mem_append.mp h
    rw [sum_concat]
    exact (ih hxs).add_step (hi i (List.mem_singleton_self i))

/-- The exact sum of steps is bounded by their number. -/
theorem natAbs_sum_le (h : ∀ i ∈ xs, i.natAbs < 2 ^ 31) : xs.sum.natAbs ≤ xs.length * 2 ^ 31 := by
  induction xs with
  | nil => exact Nat.zero_le _
  | cons i xs ih =>
    obtain ⟨hi, hxs⟩ := List.forall_mem_cons.mp h
    have := ih hxs
    rw [List.sum_cons, List.length_cons]
    omega

end Provenance.Number
