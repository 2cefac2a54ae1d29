/-
# Numbers

Lines, columns and indices are numbers of an extended rational line: the exact rationals, two
infinities, and the absent value `nan` that comes of meaningless arithmetic.

Numbers are rounded to the nearest binary64 value (`Provenance.Number.Binary`) where they are added
(`Provenance.Number.Arithmetic`), read and written (`Provenance.Number.Decimal`).

The main facts:

* `natCast_lt`, `natCast_le`, `natCast_inj` : naturals keep their order among the numbers;
* `toNat?_natCast`, `eq_natCast_of_toNat?` : the naturals among the numbers;
* `not_nan_lt`, `not_lt_nan` : no comparison with `nan` holds.
-/

namespace Provenance

/-- A finite rational, an infinity, or no value at all. -/
inductive Number where
  | finite (value : Rat)
  | posInf
  | negInf
  | nan
  deriving DecidableEq, Repr, Inhabited

namespace Number

/-! ## Integers among the numbers -/

/-- Every integer is a number. -/
instance : IntCast Number := ⟨fun i => finite (i : Rat)⟩

/-- Every natural is a number. -/
instance : NatCast Number := ⟨fun n => finite ((n : Int) : Rat)⟩

instance (n : Nat) : OfNat Number n := ⟨(n : Number)⟩

/-- The integer that a number is, if it is one. -/
def toInt? : Number → Option Int
  | finite q => if q.den = 1 then some q.num else none
  | _ => none

/-- The natural that a number is, if it is one. -/
def toNat? (x : Number) : Option Nat :=
  match x.toInt? with
  | some (Int.ofNat n) => some n
  | _ => none

/-- Whether a number is an integer. -/
def isInteger (x : Number) : Bool := x.toInt?.isSome

/-! ## Order -/

/-- The strict order of the extended line; `nan` is comparable to nothing. -/
protected def ltb : Number → Number → Bool
  | finite a, finite b => decide (a < b)
  | nan, _ | _, nan => false
  | negInf, negInf | posInf, posInf => false
  | negInf, _ | _, posInf => true
  | posInf, _ | _, negInf => false

/-- The order of the extended line; `nan` is not even at most itself. -/
protected def leb : Number → Number → Bool
  | finite a, finite b => decide (a ≤ b)
  | nan, _ | _, nan => false
  | negInf, _ | _, posInf => true
  | posInf, _ | _, negInf => false

instance : LT Number := ⟨fun a b => a.ltb b = true⟩
instance : LE Number := ⟨fun a b => a.leb b = true⟩
instance (a b : Number) : Decidable (a < b) := inferInstanceAs (Decidable (_ = true))
instance (a b : Number) : Decidable (a ≤ b) := inferInstanceAs (Decidable (_ = true))

/-- The lesser of two numbers; without a value as soon as one of them has none. -/
protected def min (a b : Number) : Number :=
  if a = nan ∨ b = nan then nan else if a ≤ b then a else b

instance : Min Number := ⟨Number.min⟩

/-- The integer part, cut toward zero. -/
def truncate (q : Rat) : Int := q.num.tdiv q.den

/-- A number as an offset into something of the given length: negative numbers count from the end,
and whatever lies outside is moved to the nearer end. -/
def clampIndex (x : Number) (length : Nat) : Nat :=
  match x with
  | finite q =>
    let i := truncate q
    if i < 0 then (i + length).toNat else min i.toNat length
  | posInf => length
  | negInf | nan => 0

/-- A number as a count: cut toward zero, and none at all below one. -/
def toCount : Number → Nat
  | finite q => (truncate q).toNat
  | posInf => 0x1FFFFFFFFFFFFF
  | negInf | nan => 0

/-! ## Laws of the integers -/

theorem natCast_def (n : Nat) : (n : Number) = finite ((n : Int) : Rat) := rfl

theorem intCast_def (i : Int) : (i : Number) = finite (i : Rat) := rfl

@[simp] theorem ofNat_eq_natCast (n : Nat) : (OfNat.ofNat n : Number) = (n : Number) := rfl

/-- A natural is the same number as the integer it is. -/
theorem intCast_natCast (n : Nat) : ((n : Int) : Number) = (n : Number) := rfl

@[simp] theorem intCast_inj {a b : Int} : (a : Number) = (b : Number) ↔ a = b := by
  rw [intCast_def, intCast_def, finite.injEq, Rat.intCast_inj]

@[simp] theorem intCast_lt {a b : Int} : (a : Number) < (b : Number) ↔ a < b := by
  show Number.ltb _ _ = true ↔ _
  simp only [intCast_def, Number.ltb, decide_eq_true_eq, Rat.intCast_lt_intCast]

@[simp] theorem intCast_le {a b : Int} : (a : Number) ≤ (b : Number) ↔ a ≤ b := by
  show Number.leb _ _ = true ↔ _
  simp only [intCast_def, Number.leb, decide_eq_true_eq, Rat.intCast_le_intCast]

@[simp] theorem natCast_inj {a b : Nat} : (a : Number) = (b : Number) ↔ a = b := by
  rw [← intCast_natCast, ← intCast_natCast, intCast_inj, Int.ofNat_inj]

@[simp] theorem natCast_lt {a b : Nat} : (a : Number) < (b : Number) ↔ a < b := by
  rw [← intCast_natCast, ← intCast_natCast, intCast_lt, Int.ofNat_lt]

@[simp] theorem natCast_le {a b : Nat} : (a : Number) ≤ (b : Number) ↔ a ≤ b := by
  rw [← intCast_natCast, ← intCast_natCast, intCast_le, Int.ofNat_le]

/-- What an integer is at most, a smaller integer is at most too. -/
theorem intCast_le_of_le {a b : Int} {x : Number} (hab : a ≤ b) (h : (b : Number) ≤ x) :
    (a : Number) ≤ x := by
  cases x with
  | finite q =>
    have hb : (b : Rat) ≤ q := of_decide_eq_true h
    exact decide_eq_true (Rat.le_trans (Rat.intCast_le_intCast.mpr hab) hb)
  | posInf => rfl
  | negInf => cases h
  | nan => cases h

/-- What a natural is at most, a smaller natural is at most too. -/
theorem natCast_le_of_le {a b : Nat} {x : Number} (hab : a ≤ b) (h : (b : Number) ≤ x) :
    (a : Number) ≤ x := intCast_le_of_le (Int.ofNat_le.mpr hab) h

/-- What a natural is at most is not below it. -/
theorem not_lt_natCast_of_le {a : Nat} {x : Number} (h : (a : Number) ≤ x) : ¬ x < (a : Number) := by
  cases x with
  | finite q =>
    have ha : ((a : Int) : Rat) ≤ q := of_decide_eq_true h
    exact fun hlt => absurd (of_decide_eq_true hlt) (Rat.not_lt.mpr ha)
  | posInf => exact Bool.false_ne_true
  | negInf => cases h
  | nan => cases h

/-- Every natural is at most infinity. -/
theorem natCast_le_posInf (a : Nat) : (a : Number) ≤ posInf := rfl

@[simp] theorem toInt?_intCast (i : Int) : (i : Number).toInt? = some i := by
  simp [intCast_def, toInt?]

@[simp] theorem toNat?_natCast (n : Nat) : (n : Number).toNat? = some n := by
  rw [← intCast_natCast, toNat?, toInt?_intCast]

/-- A number that is an integer is that integer. -/
theorem eq_intCast_of_toInt? {x : Number} {i : Int} (h : x.toInt? = some i) : x = (i : Number) := by
  cases x with
  | finite q =>
    rw [toInt?] at h
    split at h
    · rename_i hden
      rw [← Option.some.inj h, intCast_def]
      exact congrArg finite (Rat.ext (Rat.num_intCast _).symm (hden.trans (Rat.den_intCast _).symm))
    · cases h
  | _ => cases h

/-- A number that is a natural is that natural. -/
theorem eq_natCast_of_toNat? {x : Number} {n : Nat} (h : x.toNat? = some n) : x = (n : Number) := by
  rw [toNat?] at h
  split at h
  · rename_i k hk
    rw [eq_intCast_of_toInt? hk, ← Option.some.inj h]
    exact intCast_natCast k
  · cases h

/-- An integer is its own integer part. -/
theorem truncate_intCast (i : Int) : truncate (i : Rat) = i := by
  unfold truncate
  rw [Rat.num_intCast, Rat.den_intCast]
  exact Int.tdiv_one i

/-! ## Laws of the missing value -/

@[simp] theorem not_nan_lt (x : Number) : ¬ nan < x := by
  cases x <;> exact Bool.false_ne_true

@[simp] theorem not_lt_nan (x : Number) : ¬ x < nan := by
  cases x <;> exact Bool.false_ne_true

@[simp] theorem not_nan_le (x : Number) : ¬ nan ≤ x := by
  cases x <;> exact Bool.false_ne_true

@[simp] theorem not_le_nan (x : Number) : ¬ x ≤ nan := by
  cases x <;> exact Bool.false_ne_true

end Number

end Provenance
