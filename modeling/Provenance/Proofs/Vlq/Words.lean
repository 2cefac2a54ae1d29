/-
# Words of integers

An integer is written as a word of 32 bits.  The word is made by shifting the magnitude, whatever bits of
it get lost, and taken apart by shifting as well.  So every integer is written as a numeral, and the
numeral stands for the integer's remainder by 2^31, with its sign: for the integer itself if that has a
magnitude of at most 31 bits, and for another one if not.

The main facts:

* `word_intCast_eq_shifted`, `encode_eq_shiftedDigits` : writing with the operations of 32-bit words;
* `value_ofNumber_intCast` : what the numeral of an integer stands for;
* `reads_back_iff_natAbs_le` : an integer is read back, whatever surrounds it, if and only if it has at
  most 31 bits.
-/
import Mathlib.Data.Int.Basic
import Provenance.Proofs.Vlq.Numeral

namespace Provenance.Vlq

/-! ## Shifting -/

/-- The word of an integer, by shifting its magnitude and setting the lowest bit if it is negative. -/
def shiftedWord (v : Int) : BitVec 32 :=
  if v < 0 then BitVec.ofInt 32 (-v) <<< 1 ||| 1#32 else BitVec.ofInt 32 v <<< 1

/-- The digits of a word, lowest first, by masking five bits and shifting until nothing is left. -/
def shiftedDigits (w : BitVec 32) : List (BitVec 32) :=
  if 0#32 < w >>> 5 then (w &&& 31#32 ||| 32#32) :: shiftedDigits (w >>> 5) else [w &&& 31#32]
termination_by w.toNat
decreasing_by
  rename_i h
  rw [BitVec.lt_def, BitVec.toNat_ushiftRight, Nat.shiftRight_eq_div_pow] at h
  rw [BitVec.toNat_ushiftRight, Nat.shiftRight_eq_div_pow]
  exact Nat.div_lt_self (Nat.pos_of_ne_zero fun h0 => by simp [h0] at h) (by decide)

/-- A magnitude shifted by one is twice the magnitude, less what is beyond 32 bits. -/
theorem toNat_shiftLeft_one (n : Nat) :
    (BitVec.ofInt 32 (n : Int) <<< 1).toNat = 2 * n % wordCount := by
  rw [BitVec.toNat_shiftLeft, BitVec.toNat_ofInt, Nat.shiftLeft_eq]
  show ((n : Int) % 4294967296).toNat * 2 % 4294967296 = 2 * n % 4294967296
  omega

/-- The lowest bit of an even word is set by adding one. -/
theorem toNat_or_one {w : BitVec 32} (h : w.toNat % 2 = 0) : (w ||| 1#32).toNat = w.toNat + 1 := by
  have hadd := Nat.two_pow_add_eq_or_of_lt (i := 1) (b := 1) (by decide) (w.toNat / 2)
  have hw : 2 ^ 1 * (w.toNat / 2) = w.toNat := by omega
  rw [hw] at hadd
  rw [BitVec.toNat_or]
  exact hadd.symm

/-- The word of an integer: twice its magnitude and one if it is negative, less what is beyond 32
bits. -/
theorem word_intCast (v : Int) :
    word (v : Number) = 2 * v.natAbs % wordCount + (if v < 0 then 1 else 0) := by
  rw [Number.intCast_def]
  show 2 * (Number.truncate _).natAbs % wordCount + _ = _
  rw [Number.truncate_intCast, Rat.num_intCast]

/-- **The word of an integer is made by shifting.** -/
theorem word_intCast_eq_shifted (v : Int) : word (v : Number) = (shiftedWord v).toNat := by
  rw [word_intCast, shiftedWord]
  split
  · rename_i hneg
    have hword := toNat_shiftLeft_one v.natAbs
    rw [show (v.natAbs : Int) = -v by omega] at hword
    rw [toNat_or_one (by rw [hword]; show 2 * v.natAbs % 4294967296 % 2 = 0; omega), hword]
  · rename_i hnonneg
    have hword := toNat_shiftLeft_one v.natAbs
    rw [show (v.natAbs : Int) = v by omega] at hword
    rw [hword, Nat.add_zero]

/-- **The digits of a word are found by masking and shifting.** -/
theorem digits_toNat (w : BitVec 32) : digits w.toNat = (shiftedDigits w).map BitVec.toNat := by
  have hmask : ∀ w : BitVec 32, (w &&& 31#32).toNat = w.toNat % 32 := fun w =>
    (BitVec.toNat_and w 31#32).trans (Nat.and_two_pow_sub_one_eq_mod w.toNat 5)
  have hshift : ∀ w : BitVec 32, (w >>> 5).toNat = w.toNat / 32 := fun w =>
    (BitVec.toNat_ushiftRight w 5).trans (Nat.shiftRight_eq_div_pow w.toNat 5)
  have hpos : ∀ w : BitVec 32, 0#32 < w >>> 5 ↔ 32 ≤ w.toNat := by
    intro w
    rw [BitVec.lt_def, hshift]
    show 0 < _ ↔ _
    omega
  have hcontinued : ∀ w : BitVec 32, (w &&& 31#32 ||| 32#32).toNat = 32 + w.toNat % 32 := by
    intro w
    have hadd := Nat.two_pow_add_eq_or_of_lt (i := 5) (b := w.toNat % 32) (by omega) 1
    rw [BitVec.toNat_or, hmask, Nat.or_comm]
    exact hadd.symm
  fun_induction shiftedDigits w with
  | case1 w hrest ih =>
    rw [digits_of_le ((hpos w).mp hrest), List.map_cons, hcontinued, ← hshift, ih]
  | case2 w hrest =>
    have hlt : w.toNat < 32 := Nat.lt_of_not_le fun hle => hrest ((hpos w).mpr hle)
    rw [digits_of_lt hlt, List.map_singleton, hmask, Nat.mod_eq_of_lt hlt]

/-- **An integer is written with the operations of 32-bit words.** -/
theorem encode_eq_shiftedDigits (v : Int) :
    encode (v : Number) = (shiftedDigits (shiftedWord v)).map fun d => Base64.unitOf d.toNat := by
  rw [encode, word_intCast_eq_shifted, digits_toNat, List.map_map]
  rfl

/-! ## Reading back -/

/-- The remainder of an integer by 2^31 is that of its magnitude, with its sign. -/
theorem tmod_eq (v : Int) : v.tmod 0x80000000 =
    if v < 0 then -((v.natAbs % 0x80000000 : Nat) : Int) else (v.natAbs % 0x80000000 : Nat) := by
  have hnat : ∀ n : Nat, (n : Int).tmod 0x80000000 = (n % 0x80000000 : Nat) := fun n => rfl
  split
  · rw [← hnat, ← Int.neg_tmod]
    congr 1
    omega
  · rw [← hnat]
    congr 1
    omega

namespace Numeral

/-- **The numeral of an integer stands for its remainder by 2^31**, with its sign. -/
theorem value_ofNumber_intCast (v : Int) : (ofNumber (v : Number)).value = v.tmod 0x80000000 := by
  rw [tmod_eq, value, word_ofNumber, word_intCast, wordCount]
  by_cases hneg : v < 0
  · simp only [if_pos hneg]
    split <;> omega
  · simp only [if_neg hneg]
    split <;> omega

end Numeral

/-- What is written for an integer is read as its remainder, wherever it stands. -/
theorem readValue_encode (v : Int) (before after : Text) :
    readValue before.length ((before ++ encode (v : Number) ++ after).drop before.length) =
      .ok ⟨((v.tmod 0x80000000 : Int) : Number), (before ++ encode (v : Number)).length, after⟩ := by
  rw [List.append_assoc, List.drop_left, ← Numeral.text_ofNumber,
    readValue_text (Numeral.short_ofNumber (v : Number)), Numeral.value_ofNumber_intCast,
    List.length_append]

/-- The integers of at most 31 bits are their own remainders. -/
theorem tmod_eq_self_iff (v : Int) : v.tmod 0x80000000 = v ↔ v.natAbs ≤ 2 ^ 31 - 1 := by
  rw [tmod_eq]
  split <;> omega

/-- **An integer is read back if and only if it has at most 31 bits.**  It is written with the
operations of 32-bit words.  If its magnitude has 31 bits at most, then what is written is read as the
integer, from where it starts, whatever stands before it and behind it, and the reading stops where it
ends.  What is written for any other integer is read to its end, as another integer. -/
theorem reads_back_iff_natAbs_le (v : Int) :
    encode (v : Number) = ((shiftedDigits (shiftedWord v)).map fun d => Base64.unitOf d.toNat) ∧
    (v.natAbs ≤ 2 ^ 31 - 1 → ∀ before after : Text,
      readValue before.length ((before ++ encode (v : Number) ++ after).drop before.length) =
        .ok ⟨(v : Number), (before ++ encode (v : Number)).length, after⟩) ∧
    (2 ^ 31 - 1 < v.natAbs → ∃ w : Int, w ≠ v ∧
      readValue 0 (encode (v : Number)) =
        .ok ⟨(w : Number), (encode (v : Number)).length, []⟩) := by
  refine ⟨encode_eq_shiftedDigits v, fun hle before after => ?_,
    fun hlt => ⟨v.tmod 0x80000000, fun heq => ?_, ?_⟩⟩
  · have hself := (tmod_eq_self_iff v).mpr hle
    have hread := readValue_encode v before after
    rwa [hself] at hread
  · exact absurd ((tmod_eq_self_iff v).mp heq) (Nat.not_le.mpr hlt)
  · have hread := readValue_encode v [] []
    rwa [List.append_nil, List.nil_append] at hread

/-- The greatest integer that is read back, between other digits, and the one behind it, which is read
as zero. -/
theorem reads_back_iff_natAbs_le_boundary :
    readValue 2 ((("gB" : Text) ++ encode ((2147483647 : Int) : Number) ++ ("C" : Text)).drop 2) =
        .ok ⟨((2147483647 : Int) : Number), 9, "C"⟩ ∧
      ∃ w : Int, w ≠ 2147483648 ∧
        readValue 0 (encode ((2147483648 : Int) : Number)) =
          .ok ⟨(w : Number), (encode ((2147483648 : Int) : Number)).length, []⟩ := by
  obtain ⟨-, hread, -⟩ := reads_back_iff_natAbs_le 2147483647
  obtain ⟨-, -, hother⟩ := reads_back_iff_natAbs_le 2147483648
  have hlength : (("gB" : Text) ++ encode ((2147483647 : Int) : Number)).length = 9 := by
    decide +kernel
  have hread := hread (by decide) "gB" "C"
  rw [hlength] at hread
  exact ⟨hread, hother (by decide)⟩

end Provenance.Vlq
