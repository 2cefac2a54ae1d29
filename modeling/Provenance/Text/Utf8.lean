/-
# UTF-8

The UTF-8 bytes of a text.  A surrogate pair is one character of four bytes; a surrogate that stands
alone is written as the replacement character.

The main facts:

* `utf8_cons_cons_of_pair`, `utf8_cons_of_not_pair` : the two ways a text starts.
-/
import Provenance.Text.Basic

namespace Provenance

/-- The bytes of one unit that is not part of a pair. -/
def CodeUnit.utf8 (u : CodeUnit) : List UInt8 :=
  let n := u.toNat
  if n < 0x80 then [n.toUInt8]
  else if n < 0x800 then [(0xC0 + n / 0x40).toUInt8, (0x80 + n % 0x40).toUInt8]
  else if u.isHighSurrogate || u.isLowSurrogate then [0xEF, 0xBF, 0xBD]
  else [(0xE0 + n / 0x1000).toUInt8, (0x80 + n / 0x40 % 0x40).toUInt8, (0x80 + n % 0x40).toUInt8]

namespace Text

/-- The code point of a surrogate pair. -/
def pairPoint (high low : CodeUnit) : Nat :=
  0x10000 + (high.toNat - 0xD800) * 0x400 + (low.toNat - 0xDC00)

/-- The four bytes of a surrogate pair. -/
def utf8Pair (high low : CodeUnit) : List UInt8 :=
  let n := pairPoint high low
  [(0xF0 + n / 0x40000).toUInt8, (0x80 + n / 0x1000 % 0x40).toUInt8,
    (0x80 + n / 0x40 % 0x40).toUInt8, (0x80 + n % 0x40).toUInt8]

/-- The UTF-8 bytes of a text. -/
def utf8 : Text → List UInt8
  | [] => []
  | [u] => u.utf8
  | u :: v :: rest =>
    if u.isHighSurrogate && v.isLowSurrogate then utf8Pair u v ++ utf8 rest
    else u.utf8 ++ utf8 (v :: rest)

/-- A pair in front is one character. -/
theorem utf8_cons_cons_of_pair {u v : CodeUnit} (rest : Text)
    (h : (u.isHighSurrogate && v.isLowSurrogate) = true) :
    utf8 (u :: v :: rest) = utf8Pair u v ++ utf8 rest := by
  rw [utf8, if_pos h]

/-- A unit that does not pair with its neighbour is written on its own. -/
theorem utf8_cons_of_not_pair {u : CodeUnit} {rest : Text}
    (h : ∀ v ∈ rest.head?, (u.isHighSurrogate && v.isLowSurrogate) = false) :
    utf8 (u :: rest) = u.utf8 ++ utf8 rest := by
  cases rest with
  | nil => simp [utf8]
  | cons v rest => rw [utf8, if_neg (by simpa using h v rfl)]

end Text

/-! ## Hexadecimal text of bytes -/

/-- Each byte as two lower case hexadecimal digits. -/
def hex (bytes : List UInt8) : Text :=
  bytes.flatMap fun b => [CodeUnit.hexDigit (b.toNat / 16), CodeUnit.hexDigit (b.toNat % 16)]

end Provenance
