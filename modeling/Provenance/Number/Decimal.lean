/-
# Decimal text of numbers

A number is written with the fewest digits that read back as its nearest binary64 value, and of
those with the digits nearest to it.  The notation is positional from 10^-6 up to 10^21 and uses an
exponent outside that range.

The main facts:

* `chars_natCast` : naturals up to 2^53 are written with all their digits.
-/
import Provenance.Number.Binary

namespace Provenance.Number

/-! ## Reading decimals -/

/-- The power of ten with a natural exponent. -/
def tenPow (k : Nat) : Nat := Nat.pow 10 k

/-- The binary64 value nearest to `m * 10^e`, negated if `negative` holds.  Exponents far outside
the range of binary64 are settled without computing the power. -/
def ofDecimal (negative : Bool) (m : Nat) (e : Int) : Number :=
  let size : Int := (Nat.toDigits 10 m).length
  if m = 0 then 0
  else if 310 < e + size then
    if negative then negInf else posInf
  else if e + size < -400 then 0
  else
    let magnitude : Rat :=
      if 0 ≤ e then ((m * tenPow e.toNat : Nat) : Rat) else mkRat m (tenPow (-e).toNat)
    nearest (if negative then -magnitude else magnitude)

/-! ## The fewest digits that read back -/

/-- A positive decimal `digits * 10^exponent`. -/
structure Decimal where
  digits : Nat
  exponent : Int
  deriving DecidableEq, Repr

/-- The rational that a decimal stands for. -/
def Decimal.value (d : Decimal) : Rat :=
  if 0 ≤ d.exponent then ((d.digits * tenPow d.exponent.toNat : Nat) : Rat)
  else mkRat d.digits (tenPow (-d.exponent).toNat)

/-- The number of digits before the decimal point of a positive rational; zero or negative if it
starts with that many zeros after the point. -/
def leadingPlace (q : Rat) : Int :=
  if (q.den : Int) ≤ q.num then ((Nat.toDigits 10 q.floor.toNat).length : Int)
  else
    match (List.range 400).find? fun k => (q.den : Int) ≤ q.num * (tenPow (k + 1) : Int) with
    | some k => -(k : Int)
    | none => 0

/-- The decimal with at most `k` digits that reads back as the positive binary64 value `q`, if there
is one; of two the nearer, and of two equally near the even one. -/
def decimalWith? (q : Rat) (k : Nat) : Option Decimal :=
  let e := leadingPlace q - k
  let scaled : Rat :=
    if 0 ≤ e then mkRat q.num (q.den * tenPow e.toNat)
    else mkRat (q.num * tenPow (-e).toNat) q.den
  let low := scaled.floor.toNat
  let below : Decimal := ⟨low, e⟩
  let above : Decimal := ⟨low + 1, e⟩
  match decide (nearest below.value = finite q), decide (nearest above.value = finite q) with
  | true, false => some below
  | false, true => some above
  | false, false => none
  | true, true =>
    let toBelow := scaled - (low : Rat)
    let toAbove := ((low + 1 : Nat) : Rat) - scaled
    if toBelow < toAbove then some below
    else if toAbove < toBelow then some above
    else if low % 2 = 0 then some below
    else some above

/-- The shortest decimal that reads back as the positive binary64 value `q`: seventeen digits always
suffice. -/
def shortest (q : Rat) : Decimal :=
  ((List.range 17).findSome? fun k => decimalWith? q (k + 1)).getD ⟨q.floor.toNat, 0⟩

/-! ## Notation -/

/-- The digits of a natural, most significant first. -/
def natDigits (n : Nat) : List Char := Nat.toDigits 10 n

/-- The decimal in the notation its size asks for. -/
def Decimal.chars (d : Decimal) : List Char :=
  let all := natDigits d.digits
  let ds := (all.reverse.dropWhile (· == '0')).reverse
  let place : Int := (all.length : Int) + d.exponent
  let size : Int := ds.length
  if size ≤ place ∧ place ≤ 21 then ds ++ List.replicate (place - size).toNat '0'
  else if 0 < place ∧ place ≤ 21 then ds.take place.toNat ++ '.' :: ds.drop place.toNat
  else if -6 < place ∧ place ≤ 0 then '0' :: '.' :: List.replicate (-place).toNat '0' ++ ds
  else
    let shown := place - 1
    let power := (if shown < 0 then '-' else '+') :: natDigits shown.natAbs
    match ds with
    | [d] => d :: 'e' :: power
    | d :: rest => d :: '.' :: rest ++ 'e' :: power
    | [] => []

/-- The text of a finite value. -/
def charsOfRat (q : Rat) : List Char :=
  let magnitude :=
    if q.den = 1 ∧ q.num.natAbs ≤ exactLimit then natDigits q.num.natAbs
    else (shortest (if q.num < 0 then -q else q)).chars
  if q.num < 0 then '-' :: magnitude else magnitude

/-- The text of a number: its nearest binary64 value written with the fewest digits. -/
def chars (x : Number) : List Char :=
  match x.rounded with
  | finite q => charsOfRat q
  | posInf => "Infinity".toList
  | negInf => "-Infinity".toList
  | nan => "NaN".toList

/-- Naturals of magnitude at most 2^53 are written with all their digits. -/
theorem chars_natCast (n : Nat) (h : n ≤ exactLimit) : chars (n : Number) = natDigits n := by
  have hr : (n : Number).rounded = (n : Number) := by
    rw [← intCast_natCast]
    exact rounded_intCast _ (by rw [Int.natAbs_natCast]; exact h)
  rw [chars, hr, natCast_def]
  show charsOfRat _ = _
  unfold charsOfRat
  rw [Rat.num_intCast, Rat.den_intCast, if_neg (Int.not_lt.mpr (Int.natCast_nonneg n)),
    if_pos ⟨rfl, by rw [Int.natAbs_natCast]; exact h⟩, Int.natAbs_natCast]

end Provenance.Number
