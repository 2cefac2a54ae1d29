/-
# Base64

Three bytes are written as four digits of six bits each; a last group of one or two bytes is filled
up with `=`.  The digits' alphabet is also that of `Provenance.Vlq`.

The main facts:

* `digitOf?_unitOf` : a digit's unit stands for that digit;
* `unitOf_digitOf?` : a unit of the alphabet is the unit of its digit.
-/
import Provenance.Text.Basic

namespace Provenance.Base64

/-! ## The alphabet -/

/-- The unit of a digit below 64. -/
def unitOf (d : Nat) : CodeUnit :=
  (if d < 26 then 65 + d
    else if d < 52 then 71 + d
    else if d < 62 then d - 4
    else if d = 62 then 43
    else 47).toUInt16

/-- The digit that a unit stands for, if it belongs to the alphabet. -/
def digitOf? (u : CodeUnit) : Option Nat :=
  let n := u.toNat
  if 65 ≤ n ∧ n ≤ 90 then some (n - 65)
  else if 97 ≤ n ∧ n ≤ 122 then some (n - 71)
  else if 48 ≤ n ∧ n ≤ 57 then some (n + 4)
  else if n = 43 then some 62
  else if n = 47 then some 63
  else none

/-- A digit's unit stands for that digit. -/
theorem digitOf?_unitOf {d : Nat} (h : d < 64) : digitOf? (unitOf d) = some d := by
  have all : ∀ d < 64, digitOf? (unitOf d) = some d := by decide
  exact all d h

/-- Digits are below 64. -/
theorem digitOf?_lt {u : CodeUnit} {d : Nat} (h : digitOf? u = some d) : d < 64 := by
  simp only [digitOf?] at h
  grind

/-- A unit of the alphabet is the unit of its digit. -/
theorem unitOf_digitOf? {u : CodeUnit} {d : Nat} (h : digitOf? u = some d) : unitOf d = u := by
  have hu : u = u.toNat.toUInt16 := by simp
  have all : ∀ n < 128, ∀ d ∈ digitOf? n.toUInt16, unitOf d = n.toUInt16 := by decide
  have small : u.toNat < 128 := by
    simp only [digitOf?] at h
    grind
  rw [hu] at h ⊢
  exact all u.toNat small d h

/-! ## Bytes -/

/-- The sign that fills up the last group. -/
abbrev padding : CodeUnit := 61

/-- The base64 text of a list of bytes. -/
def encode : List UInt8 → Text
  | [] => []
  | [a] =>
    let n := a.toNat * 16
    [unitOf (n / 64), unitOf (n % 64), padding, padding]
  | [a, b] =>
    let n := (a.toNat * 256 + b.toNat) * 4
    [unitOf (n / 4096), unitOf (n / 64 % 64), unitOf (n % 64), padding]
  | a :: b :: c :: rest =>
    let n := (a.toNat * 256 + b.toNat) * 256 + c.toNat
    unitOf (n / 262144) :: unitOf (n / 4096 % 64) :: unitOf (n / 64 % 64) :: unitOf (n % 64) ::
      encode rest

end Provenance.Base64
