/-
# Decoding

The way back from base64 text to bytes and from bytes to a text.  Bytes are read back from their base64
text, and a well-formed text is read back from its bytes.

The main facts:

* `decode?_encode` : bytes are read back from base64;
* `ofUtf8?_utf8` : a well-formed text is read back from its bytes.
-/
import Provenance.Proofs.Text.Encoding
import Provenance.Text.Base64

namespace Provenance

namespace Base64

/-! ## Base64 -/

/-- The number that some units stand for, six bits each. -/
def bits? (units : List CodeUnit) : Option Nat :=
  units.foldlM (fun n u => (digitOf? u).map fun d => n * 64 + d) 0

/-- The bytes of a base64 text, if it is one. -/
def decode? : Text → Option (List UInt8)
  | [] => some []
  | a :: b :: c :: d :: rest =>
    if d ≠ padding then do
      let n ← bits? [a, b, c, d]
      let bytes ← decode? rest
      some ((n / 65536).toUInt8 :: (n / 256 % 256).toUInt8 :: (n % 256).toUInt8 :: bytes)
    else if rest ≠ [] then none
    else if c ≠ padding then
      (bits? [a, b, c]).map fun n => [(n / 1024).toUInt8, (n / 4 % 256).toUInt8]
    else (bits? [a, b]).map fun n => [(n / 16).toUInt8]
  | _ => none

theorem unitOf_ne_padding {d : Nat} (h : d < 64) : unitOf d ≠ padding := by
  intro heq
  have hread := digitOf?_unitOf h
  rw [heq] at hread
  cases hread

/-- Digits are read as the number that they were written for. -/
theorem bits?_map_unitOf (ds : List Nat) (h : ∀ d ∈ ds, d < 64) :
    bits? (ds.map unitOf) = some (ds.foldl (fun n d => n * 64 + d) 0) := by
  have hfrom : ∀ n, (ds.map unitOf).foldlM (fun n u => (digitOf? u).map fun d => n * 64 + d) n =
      some (ds.foldl (fun n d => n * 64 + d) n) := by
    induction ds with
    | nil => exact fun n => rfl
    | cons d rest ih =>
      obtain ⟨hd, hrest⟩ := List.forall_mem_cons.mp h
      intro n
      rw [List.map_cons, List.foldlM_cons, digitOf?_unitOf hd]
      exact ih hrest _
  exact hfrom 0

theorem bits?_two {n : Nat} (h : n < 4096) : bits? [unitOf (n / 64), unitOf (n % 64)] = some n := by
  have hread := bits?_map_unitOf [n / 64, n % 64] (by simp; omega)
  have hvalue : [n / 64, n % 64].foldl (fun n d => n * 64 + d) 0 = n := by simp; omega
  exact hread.trans (congrArg some hvalue)

theorem bits?_three {n : Nat} (h : n < 262144) :
    bits? [unitOf (n / 4096), unitOf (n / 64 % 64), unitOf (n % 64)] = some n := by
  have hread := bits?_map_unitOf [n / 4096, n / 64 % 64, n % 64] (by simp; omega)
  have hvalue : [n / 4096, n / 64 % 64, n % 64].foldl (fun n d => n * 64 + d) 0 = n := by
    simp; omega
  exact hread.trans (congrArg some hvalue)

theorem bits?_four {n : Nat} (h : n < 16777216) :
    bits? [unitOf (n / 262144), unitOf (n / 4096 % 64), unitOf (n / 64 % 64), unitOf (n % 64)] =
      some n := by
  have hread := bits?_map_unitOf [n / 262144, n / 4096 % 64, n / 64 % 64, n % 64] (by simp; omega)
  have hvalue : [n / 262144, n / 4096 % 64, n / 64 % 64, n % 64].foldl
      (fun n d => n * 64 + d) 0 = n := by
    simp; omega
  exact hread.trans (congrArg some hvalue)

theorem toUInt8_toNat {a : UInt8} {n : Nat} (h : n = a.toNat) : n.toUInt8 = a := by
  rw [h]
  exact UInt8.ofNat_toNat

/-- **Bytes are read back from base64.** -/
theorem decode?_encode (bytes : List UInt8) : decode? (encode bytes) = some bytes := by
  fun_induction encode bytes with
  | case1 => rfl
  | case2 a n =>
    have ha := a.toNat_lt
    have hn : n = a.toNat * 16 := rfl
    rw [decode?, if_neg (by simp), if_neg (by simp), if_neg (by simp), bits?_two (by omega),
      Option.map_some, toUInt8_toNat (a := a) (by omega)]
  | case3 a b n =>
    have ha := a.toNat_lt
    have hb := b.toNat_lt
    have hn : n = (a.toNat * 256 + b.toNat) * 4 := rfl
    rw [decode?, if_neg (by simp), if_neg (by simp), if_pos (unitOf_ne_padding (by omega)),
      bits?_three (by omega), Option.map_some, toUInt8_toNat (a := a) (by omega),
      toUInt8_toNat (a := b) (by omega)]
  | case4 a b c rest n ih =>
    have ha := a.toNat_lt
    have hb := b.toNat_lt
    have hc := c.toNat_lt
    have hn : n = (a.toNat * 256 + b.toNat) * 256 + c.toNat := rfl
    rw [decode?, if_pos (unitOf_ne_padding (by omega)), bits?_four (by omega), ih]
    show some _ = _
    rw [toUInt8_toNat (a := a) (by omega), toUInt8_toNat (a := b) (by omega),
      toUInt8_toNat (a := c) (by omega)]

end Base64

namespace Text

/-! ## UTF-8 -/

/-- The text that some bytes are the UTF-8 form of, if they are one. -/
def ofUtf8? (bytes : List UInt8) : Option Text :=
  (String.fromUTF8? bytes.toByteArray).map ofString

/-- **A well-formed text is read back from its bytes.** -/
theorem ofUtf8?_utf8 {t : Text} (h : t.wellFormed = true) : ofUtf8? t.utf8 = some t := by
  obtain ⟨str, rfl⟩ := exists_ofString h
  have hbytes : (ofString str).utf8.toByteArray = str.toByteArray := by
    apply ByteArray.ext
    rw [← Array.toList_inj, List.toList_data_toByteArray, utf8_ofString]
    rfl
  rw [ofUtf8?, hbytes, String.fromUTF8?, dif_pos str.isValidUTF8]
  rfl

end Text

end Provenance
