/-
# What a content hash tells

The bytes that are hashed for a list of well-formed fields determine the fields: each field is
preceded by its length, and a well-formed text of known length is read back from its bytes.  A content
hash in turn determines the digest of the stream.

The main facts:

* `stream_inj` : the stream of well-formed fields determines them;
* `stream_singleton_inj` : the stream of one ASCII field determines it among all fields;
* `digest_eq_of_ofFields_eq` : equal content hashes come of equal digests.
-/
import Provenance.Digest.ContentHash
import Provenance.Proofs.Lists
import Provenance.Proofs.Text.Utf8

namespace Provenance

namespace Text

/-! ## Decimal texts -/

/-- The units of a decimal text are digits. -/
theorem ofChar_of_isDigit {c : Char} (h : c.isDigit = true) :
    ofChar c = [c.toNat.toUInt16] ∧ 48 ≤ c.toNat ∧ c.toNat ≤ 57 := by
  rw [Char.isDigit, Bool.and_eq_true, decide_eq_true_eq, decide_eq_true_eq] at h
  have hlow : 48 ≤ c.toNat := UInt32.le_iff_toNat_le.mp h.1
  have hhigh : c.toNat ≤ 57 := UInt32.le_iff_toNat_le.mp h.2
  refine ⟨?_, hlow, hhigh⟩
  rw [ofChar, if_pos (by omega)]

/-- A decimal text, read back digit by digit. -/
theorem map_ofNat (n : Nat) :
    (ofNat n).map (fun u => Char.ofNat u.toNat) = Nat.toDigits 10 n ∧
      ∀ u ∈ ofNat n, 48 ≤ u.toNat ∧ u.toNat ≤ 57 := by
  have hdigits : ∀ c ∈ Nat.toDigits 10 n, c.isDigit = true := fun c hc =>
    Nat.isDigit_of_mem_toDigits (by decide) (by decide) hc
  unfold ofNat ofChars Number.natDigits
  generalize Nat.toDigits 10 n = cs at hdigits
  induction cs with
  | nil => simp
  | cons c rest ih =>
    obtain ⟨hc, hrest⟩ := List.forall_mem_cons.mp hdigits
    obtain ⟨hunit, hlow, hhigh⟩ := ofChar_of_isDigit hc
    obtain ⟨hmap, hmem⟩ := ih hrest
    have hvalue : c.toNat.toUInt16.toNat = c.toNat := by
      simp [Nat.toUInt16, UInt16.toNat_ofNat', Nat.mod_eq_of_lt (by omega : c.toNat < 65536)]
    rw [List.flatMap_cons, hunit]
    constructor
    · rw [List.map_append, hmap, List.map_singleton, hvalue, Char.ofNat_toNat]
      rfl
    · intro u hu
      rcases List.mem_append.mp hu with hu | hu
      · rw [List.mem_singleton.mp hu, hvalue]
        exact ⟨hlow, hhigh⟩
      · exact hmem u hu

/-- The bytes of a decimal text determine the natural. -/
theorem ofNat_bytes_inj {a b : Nat}
    (h : (ofNat a).map (fun u => u.toNat.toUInt8) = (ofNat b).map fun u => u.toNat.toUInt8) :
    a = b := by
  have hback : ∀ n : Nat, ((ofNat n).map fun u => u.toNat.toUInt8).map
      (fun byte => Char.ofNat byte.toNat) = Nat.toDigits 10 n := by
    intro n
    obtain ⟨hmap, hdigit⟩ := map_ofNat n
    rw [← hmap, List.map_map]
    apply List.map_congr_left
    intro u hu
    have := hdigit u hu
    have hsmall : u.toNat % 256 = u.toNat := Nat.mod_eq_of_lt (by omega)
    simp [Nat.toUInt8, hsmall]
  have hdigits : Nat.toDigits 10 a = Nat.toDigits 10 b := by rw [← hback a, ← hback b, h]
  have hvalue := congrArg (fun cs => Nat.ofDigitChars 10 cs 0) hdigits
  simpa only [Nat.ofDigitChars_ten_toDigits] using hvalue

theorem ofNat_inj {a b : Nat} (h : ofNat a = ofNat b) : a = b :=
  ofNat_bytes_inj (by rw [h])

/-- A decimal text is ASCII. -/
theorem isAscii_ofNat (n : Nat) : (ofNat n).isAscii = true := by
  rw [isAscii_iff]
  intro u hu
  have := (map_ofNat n).2 u hu
  omega

end Text

/-! ## Hexadecimal digests -/

/-- The two digits of a byte determine it. -/
theorem hexDigit_inj {a b : Nat} (ha : a < 16) (hb : b < 16)
    (h : CodeUnit.hexDigit a = CodeUnit.hexDigit b) : a = b := by
  have hall : ∀ a < 16, ∀ b < 16, CodeUnit.hexDigit a = CodeUnit.hexDigit b → a = b := by decide
  exact hall a ha b hb h

/-- Hexadecimal digits are ASCII. -/
theorem isAscii_hex (bytes : List UInt8) : (hex bytes).isAscii = true := by
  have hall : ∀ n < 16, (CodeUnit.hexDigit n).toNat < 0x80 := by decide
  rw [Text.isAscii_iff]
  intro u hu
  obtain ⟨b, -, hu⟩ := List.mem_flatMap.mp hu
  have hb : b.toNat < 256 := b.toNat_lt
  simp only [List.mem_cons, List.not_mem_nil, or_false] at hu
  rcases hu with rfl | rfl
  · exact hall _ (by omega)
  · exact hall _ (by omega)

/-- Hexadecimal digits determine the bytes. -/
theorem hex_inj {a b : List UInt8} (h : hex a = hex b) : a = b := by
  induction a generalizing b with
  | nil =>
    cases b with
    | nil => rfl
    | cons y b => simp [hex] at h
  | cons x a ih =>
    cases b with
    | nil => simp [hex] at h
    | cons y b =>
      simp only [hex, List.flatMap_cons, List.cons_append, List.nil_append, List.cons.injEq] at h
      obtain ⟨hhigh, hlow, hrest⟩ := h
      have hx := x.toNat_lt
      have hy := y.toNat_lt
      have hhigh := hexDigit_inj (by omega) (by omega) hhigh
      have hlow := hexDigit_inj (by omega) (by omega) hlow
      have hxy : x = y := UInt8.toNat_inj.mp (by omega)
      rw [hxy, ih hrest]

namespace ContentHash

/-! ## Streams -/

/-- The bytes of a field: the digits of its length, a colon, and its own. -/
theorem fieldBytes_eq (field : Text) :
    fieldBytes field =
      (Text.ofNat field.length).map (fun u => u.toNat.toUInt8) ++ 58 :: field.utf8 := by
  have hfront : Text.isAscii (Text.ofNat field.length ++ Text.ofString ":") = true :=
    Text.isAscii_append (Text.isAscii_ofNat _) rfl
  rw [fieldBytes, Text.utf8_of_isAscii hfront, List.map_append, List.append_assoc]
  rfl

/-- The length of a field is read back from its bytes. -/
theorem length_of_fieldBytes_append {f g : Text} {x y : List UInt8}
    (h : fieldBytes f ++ x = fieldBytes g ++ y) :
    f.length = g.length ∧ f.utf8 ++ x = g.utf8 ++ y := by
  have hdigit : ∀ n : Nat, (58 : UInt8) ∉ (Text.ofNat n).map fun u => u.toNat.toUInt8 := by
    intro n hmem
    obtain ⟨u, hu, heq⟩ := List.mem_map.mp hmem
    have := (Text.map_ofNat n).2 u hu
    have := (toUInt8_inj (by omega) (by decide : 58 < 256)).mp heq
    omega
  rw [fieldBytes_eq, fieldBytes_eq, List.append_assoc, List.append_assoc] at h
  obtain ⟨hlength, h⟩ := append_cons_inj_of_not_mem (hdigit _) (hdigit _) h
  exact ⟨Text.ofNat_bytes_inj hlength, h⟩

/-- A well-formed field is read back from its bytes. -/
theorem fieldBytes_append_inj {f g : Text} (hf : f.wellFormed = true) (hg : g.wellFormed = true)
    {x y : List UInt8} (h : fieldBytes f ++ x = fieldBytes g ++ y) : f = g ∧ x = y := by
  obtain ⟨hlength, h⟩ := length_of_fieldBytes_append h
  exact Text.utf8_append_inj hf hg hlength h

/-- **The stream of well-formed fields determines them.** -/
theorem stream_inj {fs gs : List Text} (hfs : ∀ f ∈ fs, f.wellFormed = true)
    (hgs : ∀ g ∈ gs, g.wellFormed = true) (h : stream fs = stream gs) : fs = gs := by
  induction fs generalizing gs with
  | nil =>
    cases gs with
    | nil => rfl
    | cons g gs => simp [stream, fieldBytes_eq] at h
  | cons f fs ih =>
    cases gs with
    | nil => simp [stream, fieldBytes_eq] at h
    | cons g gs =>
      obtain ⟨hf, hfs'⟩ := List.forall_mem_cons.mp hfs
      obtain ⟨hg, hgs'⟩ := List.forall_mem_cons.mp hgs
      have h : fieldBytes f ++ stream fs = fieldBytes g ++ stream gs := h
      obtain ⟨rfl, hrest⟩ := fieldBytes_append_inj hf hg h
      rw [ih hfs' hgs' hrest]

/-- The stream of one ASCII field is that of no other field, well formed or not. -/
theorem stream_singleton_inj {f g : Text} (hf : f.isAscii = true) (h : stream [f] = stream [g]) :
    f = g := by
  have hstream : ∀ f : Text, stream [f] = fieldBytes f ++ [] := fun f => rfl
  rw [hstream, hstream] at h
  obtain ⟨hlength, h⟩ := length_of_fieldBytes_append h
  rw [List.append_nil, List.append_nil] at h
  exact Text.utf8_inj_of_isAscii hf hlength h

/-! ## Content hashes -/

/-- A content hash is ASCII. -/
theorem isAscii_ofFields (fields : List Text) : (ofFields fields).isAscii = true :=
  Text.isAscii_append rfl (isAscii_hex _)

/-- Equal content hashes come of equal digests. -/
theorem digest_eq_of_ofFields_eq {fs gs : List Text} (h : ofFields fs = ofFields gs) :
    Sha256.digest (stream fs) = Sha256.digest (stream gs) :=
  hex_inj (List.append_cancel_left h)

end ContentHash

end Provenance
