/-
# Texts of strings

A well-formed text is the UTF-16 form of a string, character by character.  Its bytes are those of the
string, so the bytes of a text are an encoding of characters and not only a list of bytes.

The main facts:

* `utf8_ofChar_append` : the bytes of one character;
* `utf8_ofString` : the bytes of the text of a string are the bytes of the string;
* `exists_ofString` : every well-formed text is the text of a string.
-/
import Provenance.Proofs.Text.Utf8

namespace Provenance

/-- The first half of the surrogate pair of a code point. -/
def CodeUnit.highOf (n : Nat) : CodeUnit := (0xD800 + (n - 0x10000) / 0x400).toUInt16

/-- The second half of the surrogate pair of a code point. -/
def CodeUnit.lowOf (n : Nat) : CodeUnit := (0xDC00 + (n - 0x10000) % 0x400).toUInt16

theorem toNat_ofNat_char {n : Nat} (h : n.isValidChar) : (Char.ofNat n).toNat = n := by
  rw [Char.ofNat, dif_pos h]
  rfl

namespace Text

open CodeUnit (highOf lowOf)

/-! ## One character -/

theorem toNat_toUInt16 {n : Nat} (h : n < 0x10000) : n.toUInt16.toNat = n := by
  rw [Nat.toUInt16, UInt16.toNat_ofNat', Nat.mod_eq_of_lt h]

/-- A character is a code point that is no surrogate. -/
theorem toNat_char (c : Char) : c.toNat < 0xD800 ∨ 0xDFFF < c.toNat ∧ c.toNat < 0x110000 := c.valid

theorem ofChar_of_lt {c : Char} (h : c.toNat < 0x10000) : ofChar c = [c.toNat.toUInt16] := by
  unfold ofChar
  simp only [if_pos h]

theorem ofChar_of_le {c : Char} (h : 0x10000 ≤ c.toNat) :
    ofChar c = [highOf c.toNat, lowOf c.toNat] := by
  unfold ofChar
  simp only [if_neg (Nat.not_lt.mpr h)]
  rfl

/-- A character of the basic plane is one unit. -/
theorem isScalar_char {c : Char} (h : c.toNat < 0x10000) :
    CodeUnit.isScalar c.toNat.toUInt16 = true := by
  have := toNat_char c
  rw [CodeUnit.isScalar_iff, toNat_toUInt16 h]
  omega

/-- A code point beyond the basic plane is a surrogate pair. -/
theorem pairPoint_of_le {n : Nat} (hlow : 0x10000 ≤ n) (hhigh : n < 0x110000) :
    (highOf n).isHighSurrogate = true ∧ (lowOf n).isLowSurrogate = true ∧
      pairPoint (highOf n) (lowOf n) = n := by
  have hfirst : 0xD800 + (n - 0x10000) / 0x400 < 0x10000 := by omega
  have hsecond : 0xDC00 + (n - 0x10000) % 0x400 < 0x10000 := by omega
  have hunit : (highOf n).toNat = _ ∧ (lowOf n).toNat = _ :=
    ⟨toNat_toUInt16 hfirst, toNat_toUInt16 hsecond⟩
  rw [CodeUnit.isHighSurrogate_iff, CodeUnit.isLowSurrogate_iff]
  unfold pairPoint
  omega

/-- A surrogate pair is the pair of its code point. -/
theorem eq_of_pairPoint {u v : CodeUnit} (hu : u.isHighSurrogate = true)
    (hv : v.isLowSurrogate = true) :
    highOf (pairPoint u v) = u ∧ lowOf (pairPoint u v) = v := by
  rw [CodeUnit.isHighSurrogate_iff] at hu
  rw [CodeUnit.isLowSurrogate_iff] at hv
  have hbounds := pairPoint_bounds (CodeUnit.isHighSurrogate_iff.mpr hu)
    (CodeUnit.isLowSurrogate_iff.mpr hv)
  have hfirst : 0xD800 + (pairPoint u v - 0x10000) / 0x400 < 0x10000 := by omega
  have hsecond : 0xDC00 + (pairPoint u v - 0x10000) % 0x400 < 0x10000 := by omega
  rw [← UInt16.toNat_inj, ← UInt16.toNat_inj, highOf, lowOf, toNat_toUInt16 hfirst,
    toNat_toUInt16 hsecond]
  unfold pairPoint
  omega

/-- **The bytes of the units of a character are the bytes of the character.** -/
theorem utf8_ofChar_append (c : Char) (rest : Text) :
    utf8 (ofChar c ++ rest) = String.utf8EncodeChar c ++ utf8 rest := by
  have hchar := toNat_char c
  rw [String.utf8EncodeChar.eq_1, show c.val.toNat = c.toNat from rfl]
  by_cases h : c.toNat < 0x10000
  · have hscalar := isScalar_char h
    have halone := hscalar
    rw [CodeUnit.isScalar, Bool.and_eq_true, Bool.not_eq_true'] at halone
    rw [ofChar_of_lt h, List.cons_append, List.nil_append,
      utf8_cons_of_not_pair fun v _ => by rw [halone.1, Bool.false_and],
      CodeUnit.utf8_of_isScalar hscalar, toNat_toUInt16 h]
    generalize c.toNat = n at *
    -- six bits for each byte behind the first one
    by_cases hone : n < 0x80
    · rw [if_pos hone, if_pos (Nat.le_of_lt_succ hone)]
    · by_cases htwo : n < 0x800
      · rw [if_neg hone, if_pos htwo, if_neg (by omega), if_pos (Nat.le_of_lt_succ htwo),
          show 0xC0 + n / 0x40 = n / 64 % 32 + 192 by omega,
          show 0x80 + n % 0x40 = n % 64 + 128 by omega]
      · rw [if_neg hone, if_neg htwo, if_neg (by omega), if_neg (by omega), if_pos (by omega),
          show 0xE0 + n / 0x1000 = n / 4096 % 16 + 224 by omega,
          show 0x80 + n / 0x40 % 0x40 = n / 64 % 64 + 128 by omega,
          show 0x80 + n % 0x40 = n % 64 + 128 by omega]
  · have hle : 0x10000 ≤ c.toNat := Nat.not_lt.mp h
    obtain ⟨hhigh, hlow, hpoint⟩ := pairPoint_of_le hle (by omega)
    rw [ofChar_of_le hle, List.cons_append, List.cons_append, List.nil_append,
      utf8_cons_cons_of_pair rest (by rw [hhigh, hlow, Bool.and_self]), utf8Pair, hpoint]
    generalize c.toNat = n at *
    rw [if_neg (by omega), if_neg (by omega), if_neg (by omega),
      show n / 262144 % 8 + 240 = 0xF0 + n / 0x40000 by omega,
      show n / 4096 % 64 + 128 = 0x80 + n / 0x1000 % 0x40 by omega,
      show n / 64 % 64 + 128 = 0x80 + n / 0x40 % 0x40 by omega,
      show n % 64 + 128 = 0x80 + n % 0x40 by omega]

/-! ## Strings -/

theorem ofChars_cons (c : Char) (cs : List Char) : ofChars (c :: cs) = ofChar c ++ ofChars cs :=
  List.flatMap_cons

theorem utf8_ofChars (cs : List Char) : utf8 (ofChars cs) = cs.flatMap String.utf8EncodeChar := by
  induction cs with
  | nil => rfl
  | cons c rest ih => rw [ofChars_cons, utf8_ofChar_append, List.flatMap_cons, ih]

/-- **The bytes of the text of a string are the bytes of the string.** -/
theorem utf8_ofString (str : String) : utf8 (ofString str) = str.toUTF8.data.toList := by
  rw [ofString, utf8_ofChars, String.toUTF8_eq_toByteArray, ← String.utf8Encode_toList,
    List.utf8Encode, List.toList_data_toByteArray]

/-- Every well-formed text is made of characters. -/
theorem exists_ofChars {t : Text} (h : t.wellFormed = true) : ∃ cs, ofChars cs = t := by
  induction hn : t.length using Nat.strongRecOn generalizing t with
  | ind n ih =>
    subst hn
    rcases wellFormed_cases h with rfl | ⟨u, rest, rfl, hu, hrest, -⟩ |
      ⟨u, v, rest, rfl, hu, hv, hrest, -⟩
    · exact ⟨[], rfl⟩
    · obtain ⟨cs, rfl⟩ := ih _ (Nat.lt_succ_self _) hrest rfl
      have hlt := u.toNat_lt
      have hvalid : u.toNat.isValidChar := by
        rw [CodeUnit.isScalar_iff] at hu
        exact hu.imp id fun h => ⟨h, by omega⟩
      have hchar := toNat_ofNat_char hvalid
      refine ⟨Char.ofNat u.toNat :: cs, ?_⟩
      rw [ofChars_cons, ofChar_of_lt (by rw [hchar]; exact hlt), hchar, List.cons_append,
        List.nil_append, Nat.toUInt16, UInt16.ofNat_toNat]
    · have hless : rest.length < (u :: v :: rest).length := Nat.lt_succ_of_lt (Nat.lt_succ_self _)
      obtain ⟨cs, rfl⟩ := ih _ hless hrest rfl
      have hbounds := pairPoint_bounds hu hv
      obtain ⟨hhigh, hlow⟩ := eq_of_pairPoint hu hv
      have hvalid : (pairPoint u v).isValidChar := Or.inr ⟨by omega, by omega⟩
      have hchar := toNat_ofNat_char hvalid
      refine ⟨Char.ofNat (pairPoint u v) :: cs, ?_⟩
      rw [ofChars_cons, ofChar_of_le (by rw [hchar]; exact hbounds.1), hchar, hhigh, hlow]
      rfl

/-- **Every well-formed text is the text of a string.** -/
theorem exists_ofString {t : Text} (h : t.wellFormed = true) : ∃ str : String, ofString str = t := by
  obtain ⟨cs, hcs⟩ := exists_ofChars h
  exact ⟨String.ofList cs, by rw [ofString, String.toList_ofList, hcs]⟩

end Text

end Provenance
