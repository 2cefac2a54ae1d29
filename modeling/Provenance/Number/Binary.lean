/-
# Rounding to binary64

`nearest` is the binary64 value nearest to a rational: a multiple of a power of two with at most 53
significant bits, ties going to the even neighbour, magnitudes from 2^1024 on to infinity.

The main facts:

* `roundHalfEven_mul` : an exact quotient is not changed;
* `nearest_intCast` : integers of magnitude at most 2^53 are their own nearest values.
-/
import Provenance.Number.Basic

namespace Provenance.Number

/-! ## Quotients rounded to the nearest natural -/

/-- The natural nearest to `n / d`; of two equally near the even one. -/
def roundHalfEven (n d : Nat) : Nat :=
  let q := n / d
  let r := n % d
  if 2 * r < d then q
  else if d < 2 * r then q + 1
  else if q % 2 = 0 then q
  else q + 1

/-- An exact quotient is its own nearest natural. -/
theorem roundHalfEven_mul (k : Nat) {d : Nat} (hd : 0 < d) : roundHalfEven (k * d) d = k := by
  simp [roundHalfEven, Nat.mul_div_cancel _ hd, Nat.mul_mod_left, hd]

/-! ## The grid of binary64 values -/

/-- Integers up to this magnitude are binary64 values. -/
def exactLimit : Nat := 0x20000000000000

/-- The power of two with a natural exponent. -/
def twoPow (k : Nat) : Nat := Nat.pow 2 k

/-- The exponent of the spacing between the binary64 values around the positive quotient `n / d`:
the quotient is below 2^53 spacings, and at least 2^52 unless the spacing is the least one. -/
def spacing (n d : Nat) : Int :=
  let top : Int := (Nat.log2 n : Int) - (Nat.log2 d : Int)
  let reached := if 0 ≤ top then d * twoPow top.toNat ≤ n else d ≤ n * twoPow (-top).toNat
  max (if reached then top - 52 else top - 53) (-1074)

/-- The magnitude of the binary64 value nearest to the positive quotient `n / d`, as a multiple of a
power of two. -/
def roundMagnitude (n d : Nat) : Nat × Int :=
  let e := spacing n d
  let m :=
    if 0 ≤ e then roundHalfEven n (d * twoPow e.toNat)
    else roundHalfEven (n * twoPow (-e).toNat) d
  (m, e)

/-- The binary64 value nearest to a rational. -/
def nearest (q : Rat) : Number :=
  if q.den = 1 ∧ q.num.natAbs ≤ exactLimit then finite q
  else
    let (m, e) := roundMagnitude q.num.natAbs q.den
    if 0 ≤ e ∧ twoPow 1024 ≤ m * twoPow e.toNat then
      if q.num < 0 then negInf else posInf
    else
      let magnitude : Rat :=
        if 0 ≤ e then ((m * twoPow e.toNat : Nat) : Rat) else mkRat m (twoPow (-e).toNat)
      finite (if q.num < 0 then -magnitude else magnitude)

/-- A number rounded to binary64. -/
def rounded : Number → Number
  | finite q => nearest q
  | x => x

/-- Integers of magnitude at most 2^53 are their own nearest values. -/
theorem nearest_intCast (i : Int) (h : i.natAbs ≤ exactLimit) :
    nearest (i : Rat) = (i : Number) := by
  unfold nearest
  rw [if_pos ⟨Rat.den_intCast i, by rw [Rat.num_intCast]; exact h⟩]
  rfl

/-- Rounding keeps the integers of magnitude at most 2^53. -/
theorem rounded_intCast (i : Int) (h : i.natAbs ≤ exactLimit) : (i : Number).rounded = i :=
  nearest_intCast i h

end Provenance.Number
