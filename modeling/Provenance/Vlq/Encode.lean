/-
# Writing variable length quantities

A signed integer is written as a 32-bit word with the sign in its lowest bit and twice the magnitude
above it, five bits to a base64 digit, lowest first.  All digits but the last carry the continuation
bit.

The main facts:

* `word_natCast`, `word_neg_natCast` : the words of integers within 32 bits;
* `digits_of_lt`, `digits_of_le` : a word's digits, one at a time.
-/
import Provenance.Text.Base64

namespace Provenance.Vlq

/-- A digit from here on is followed by another one. -/
abbrev continuation : Nat := 32

/-- The number of 32-bit words. -/
abbrev wordCount : Nat := 0x100000000

/-- The 32-bit word of a number: twice its integer part, and one if it is negative. -/
def word : Number → Nat
  | .finite q =>
    let magnitude := (Number.truncate q).natAbs
    2 * magnitude % wordCount + (if q.num < 0 then 1 else 0)
  | .negInf => 1
  | .posInf | .nan => 0

/-- The digits of a word, lowest first. -/
def digits (w : Nat) : List Nat :=
  if w < continuation then [w] else (continuation + w % 32) :: digits (w / 32)
termination_by w
decreasing_by
  simp only [continuation] at *
  omega

/-- The text of a number. -/
def encode (x : Number) : Text := (digits (word x)).map Base64.unitOf

/-! ## Laws -/

/-- A small word is a single digit. -/
theorem digits_of_lt {w : Nat} (h : w < 32) : digits w = [w] := by
  rw [digits, if_pos h]

/-- A larger word starts with its lowest five bits. -/
theorem digits_of_le {w : Nat} (h : 32 ≤ w) : digits w = (32 + w % 32) :: digits (w / 32) := by
  rw [digits, if_neg (Nat.not_lt.mpr h)]

/-- The word of a natural within 31 bits. -/
theorem word_natCast {n : Nat} (h : 2 * n < wordCount) : word (n : Number) = 2 * n := by
  rw [Number.natCast_def]
  show 2 * (Number.truncate _).natAbs % wordCount + _ = _
  rw [Number.truncate_intCast, Rat.num_intCast, Int.natAbs_natCast,
    if_neg (Int.not_lt.mpr (Int.natCast_nonneg n)), Nat.mod_eq_of_lt h, Nat.add_zero]

/-- The word of a negative integer within 31 bits. -/
theorem word_neg_natCast {n : Nat} (h : 2 * n < wordCount) (hn : 0 < n) :
    word ((-(n : Int) : Int) : Number) = 2 * n + 1 := by
  rw [Number.intCast_def]
  show 2 * (Number.truncate _).natAbs % wordCount + _ = _
  rw [Number.truncate_intCast, Rat.num_intCast, Int.natAbs_neg, Int.natAbs_natCast,
    if_pos (by omega), Nat.mod_eq_of_lt h]

end Provenance.Vlq
