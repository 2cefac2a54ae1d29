/-
# Texts

A text is a sequence of UTF-16 code units, surrogates included whether paired or not.  Lengths,
columns and offsets count code units.

The main facts:

* `ofString_append` : the units of a joined string are the joined units;
* `slice_natCast` : between natural offsets, a slice is what `drop` and `take` leave.
-/
import Provenance.Number.Arithmetic
import Provenance.Number.Decimal

namespace Provenance

/-! ## Code units -/

/-- One UTF-16 code unit. -/
abbrev CodeUnit := UInt16

namespace CodeUnit

/-- The unit of a character of the basic plane. -/
def ofChar (c : Char) : CodeUnit := c.toNat.toUInt16

/-- The line feed ends a line. -/
abbrev newline : CodeUnit := 10

/-- The first half of a surrogate pair. -/
def isHighSurrogate (u : CodeUnit) : Bool := 0xD800 ≤ u && u ≤ 0xDBFF

/-- The second half of a surrogate pair. -/
def isLowSurrogate (u : CodeUnit) : Bool := 0xDC00 ≤ u && u ≤ 0xDFFF

/-- The lower case hexadecimal digit of a value below sixteen. -/
def hexDigit (n : Nat) : CodeUnit := (if n < 10 then 48 + n else 87 + n).toUInt16

end CodeUnit

/-! ## Texts -/

/-- A sequence of UTF-16 code units. -/
abbrev Text := List CodeUnit

namespace Text

/-- The longest text that can be put together. -/
def maxLength : Nat := 0x1FFFFFE8

/-- The one or two units of a character. -/
def ofChar (c : Char) : Text :=
  let n := c.toNat
  if n < 0x10000 then [n.toUInt16]
  else [(0xD800 + (n - 0x10000) / 0x400).toUInt16, (0xDC00 + (n - 0x10000) % 0x400).toUInt16]

/-- The units of a list of characters. -/
def ofChars (cs : List Char) : Text := cs.flatMap ofChar

/-- The units of a string. -/
def ofString (s : String) : Text := ofChars s.toList

instance : Coe String Text := ⟨ofString⟩

/-- The units of a joined string are the joined units. -/
theorem ofString_append (s t : String) : ofString (s ++ t) = ofString s ++ ofString t := by
  simp [ofString, ofChars, String.toList_append]

/-- The decimal text of a number. -/
def ofNumber (x : Number) : Text := ofChars x.chars

/-- The decimal text of a natural. -/
def ofNat (n : Nat) : Text := ofChars (Number.natDigits n)

/-- The decimal text of an integer. -/
def ofInt (i : Int) : Text := if i < 0 then '-'.toNat.toUInt16 :: ofNat i.natAbs else ofNat i.natAbs

/-- No surrogate stands alone: every high one is followed by a low one, and every low one follows a
high one. -/
def wellFormed : Text → Bool
  | [] => true
  | [u] => !u.isHighSurrogate && !u.isLowSurrogate
  | u :: v :: rest =>
    if u.isHighSurrogate then v.isLowSurrogate && wellFormed rest
    else !u.isLowSurrogate && wellFormed (v :: rest)

/-! ## Parts -/

/-- The units from one offset up to another.  Offsets are cut toward zero, negative ones count from
the end, and those outside the text are moved to its nearer end. -/
def slice (t : Text) (start stop : Number) : Text :=
  let first := start.clampIndex t.length
  (t.take (stop.clampIndex t.length)).drop first

/-- The units from an offset on. -/
def sliceFrom (t : Text) (start : Number) : Text :=
  t.drop (start.clampIndex t.length)

/-- Texts joined by a separator. -/
def join (separator : Text) (ts : List Text) : Text := List.intercalate separator ts

/-- Code units compare like the numbers they are, and texts like words in a dictionary. -/
def le : Text → Text → Bool
  | [], _ => true
  | _ :: _, [] => false
  | u :: s, v :: t => u < v || (u = v && le s t)

/-- Of two texts, one comes before the other or they have the same place. -/
theorem le_total (s t : Text) : (s.le t || t.le s) = true := by
  induction s generalizing t with
  | nil => rfl
  | cons u s ih =>
    cases t with
    | nil => rfl
    | cons v t =>
      have hrest := ih t
      simp only [le, Bool.or_eq_true, Bool.and_eq_true, decide_eq_true_eq] at hrest ⊢
      by_cases huv : u = v
      · rcases hrest with hst | hts
        · exact Or.inl (Or.inr ⟨huv, hst⟩)
        · exact Or.inr (Or.inr ⟨huv.symm, hts⟩)
      · rcases UInt16.lt_or_lt_of_ne huv with h | h
        · exact Or.inl (Or.inl h)
        · exact Or.inr (Or.inl h)

theorem le_refl (t : Text) : t.le t = true := by
  have h := le_total t t
  rwa [Bool.or_self] at h

/-- A text that comes before another comes before all that follow that one. -/
theorem le_trans (r s t : Text) (hrs : r.le s = true) (hst : s.le t = true) : r.le t = true := by
  induction r generalizing s t with
  | nil => rfl
  | cons u r ih =>
    cases s with
    | nil => cases hrs
    | cons v s =>
      cases t with
      | nil => cases hst
      | cons w t =>
        simp only [le, Bool.or_eq_true, Bool.and_eq_true, decide_eq_true_eq] at hrs hst ⊢
        rcases hrs with huv | ⟨rfl, hrs⟩
        · rcases hst with hvw | ⟨rfl, -⟩
          · exact Or.inl (UInt16.lt_trans huv hvw)
          · exact Or.inl huv
        · rcases hst with huw | ⟨rfl, hst⟩
          · exact Or.inl huw
          · exact Or.inr ⟨rfl, ih s t hrs hst⟩

/-- A natural offset is moved to the end if it lies behind it. -/
theorem clampIndex_natCast (n length : Nat) : (n : Number).clampIndex length = min n length := by
  simp only [Number.clampIndex, Number.truncate_intCast]
  rw [if_neg (Int.not_lt.mpr (Int.natCast_nonneg n)), Int.toNat_natCast]

/-- Between natural offsets, a slice is what `drop` and `take` leave. -/
theorem slice_natCast (t : Text) (a b : Nat) :
    t.slice (a : Number) (b : Number) = (t.take b).drop a := by
  rw [slice, clampIndex_natCast, clampIndex_natCast]
  apply List.ext_getElem?
  intro i
  simp only [List.getElem?_drop, List.getElem?_take]
  by_cases h : t.length ≤ min a t.length + i
  · rw [List.getElem?_eq_none h, List.getElem?_eq_none (by omega)]
    simp
  · have ha : min a t.length = a := by omega
    rw [ha] at h ⊢
    have hb : (a + i < min b t.length) ↔ (a + i < b) := by omega
    simp only [hb]

end Text

end Provenance
