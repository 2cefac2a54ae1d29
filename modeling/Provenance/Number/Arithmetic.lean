/-
# Arithmetic

Sums and differences of numbers are rounded to the nearest binary64 value.  Nothing is lost on
integers up to 2^53; beyond that a sum may be off, and need not depend on its summands only through
their exact sum.

A place in a text is moved by a number of units without rounding.  That makes no difference in a text
of less than 2^53 units, which every text is that can be put together, and lets what is said about
places hold for lists of units of any length.

The main facts:

* `intCast_add`, `intCast_sub` : sums and differences of integers are the rounded ones;
* `natCast_add_of_le`, `natCast_sub_of_le` : up to 2^53 they are exact;
* `moved_natCast`, `moved_neg_natCast` : natural places are moved as naturals are.
-/
import Provenance.Number.Binary

namespace Provenance

namespace Number

/-! ## Sums and differences -/

/-- The rounded sum; opposite infinities have none. -/
protected def add : Number → Number → Number
  | finite a, finite b => nearest (a + b)
  | nan, _ | _, nan => nan
  | posInf, negInf | negInf, posInf => nan
  | posInf, _ | _, posInf => posInf
  | negInf, _ | _, negInf => negInf

/-- Negation swaps the infinities. -/
protected def neg : Number → Number
  | finite a => finite (-a)
  | posInf => negInf
  | negInf => posInf
  | nan => nan

instance : Add Number := ⟨Number.add⟩
instance : Neg Number := ⟨Number.neg⟩
instance : Sub Number := ⟨fun a b => a + -b⟩

/-- A place, moved by a number of units. -/
def moved (x : Number) (units : Int) : Number :=
  match x with
  | finite q => finite (q + (units : Rat))
  | x => x

/-! ## Laws of the integers -/

/-- The sum of integers is the rounded sum. -/
theorem intCast_add (a b : Int) : (a : Number) + (b : Number) = ((a + b : Int) : Number).rounded := by
  show nearest _ = nearest _
  rw [Rat.intCast_add]

theorem neg_intCast (a : Int) : -(a : Number) = ((-a : Int) : Number) := by
  show Number.neg _ = _
  simp only [intCast_def, Number.neg, Rat.intCast_neg]

/-- The difference of integers is the rounded difference. -/
theorem intCast_sub (a b : Int) : (a : Number) - (b : Number) = ((a - b : Int) : Number).rounded := by
  show (a : Number) + -(b : Number) = _
  rw [neg_intCast, intCast_add, Int.sub_eq_add_neg]

/-- The sum of naturals is the rounded sum. -/
theorem natCast_add (a b : Nat) : (a : Number) + (b : Number) = ((a + b : Nat) : Number).rounded := by
  rw [← intCast_natCast, ← intCast_natCast, intCast_add, ← Int.natCast_add, intCast_natCast]

/-- The difference of two naturals is the rounded natural difference, if that does not fall below
zero. -/
theorem natCast_sub_natCast {a b : Nat} (h : b ≤ a) :
    (a : Number) - (b : Number) = ((a - b : Nat) : Number).rounded := by
  rw [← intCast_natCast, ← intCast_natCast, intCast_sub, ← Int.ofNat_sub h, intCast_natCast]

/-- Rounding keeps the naturals up to 2^53. -/
theorem rounded_natCast_of_le {n : Nat} (h : n ≤ exactLimit) : (n : Number).rounded = n :=
  rounded_intCast n h

/-- Sums of naturals up to 2^53 are exact. -/
theorem natCast_add_of_le {a b : Nat} (h : a + b ≤ exactLimit) :
    (a : Number) + (b : Number) = ((a + b : Nat) : Number) := by
  rw [natCast_add, rounded_natCast_of_le h]

/-- Differences of naturals up to 2^53 are exact. -/
theorem natCast_sub_of_le {a b : Nat} (hb : b ≤ a) (ha : a ≤ exactLimit) :
    (a : Number) - (b : Number) = ((a - b : Nat) : Number) := by
  rw [natCast_sub_natCast hb, rounded_natCast_of_le (Nat.le_trans (Nat.sub_le a b) ha)]

/-! ## Moved places -/

theorem moved_intCast (i units : Int) : (i : Number).moved units = ((i + units : Int) : Number) := by
  rw [intCast_def, moved, intCast_def, Rat.intCast_add]

@[simp] theorem moved_natCast (n units : Nat) :
    (n : Number).moved (units : Int) = ((n + units : Nat) : Number) := by
  rw [← intCast_natCast, moved_intCast, ← Int.natCast_add, intCast_natCast]

/-- A natural place that is moved back, if that does not make it negative. -/
theorem moved_neg_natCast {n units : Nat} (h : units ≤ n) :
    (n : Number).moved (-(units : Int)) = ((n - units : Nat) : Number) := by
  rw [← intCast_natCast, moved_intCast, ← Int.sub_eq_add_neg, ← Int.ofNat_sub h, intCast_natCast]

/-! ## Laws of the missing value -/

@[simp] theorem nan_add (x : Number) : nan + x = nan := by
  cases x <;> rfl

@[simp] theorem add_nan (x : Number) : x + nan = nan := by
  cases x <;> rfl

end Number

end Provenance
