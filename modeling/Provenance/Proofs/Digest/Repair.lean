/-
# Repaired texts

Surrogates that stand alone are replaced by the replacement character when a text is written as
UTF-8.  A text and its repaired form therefore have the same bytes, and bytes tell a text up to
repair.  What is hashed for a list of fields thus tells the repaired fields, and nothing beyond them.

The main facts:

* `utf8_repair`, `length_repair` : a repaired text has the bytes and the length of the text;
* `repair_eq_self` : a well-formed text is left as it is;
* `stream_eq_iff` : the streams of two lists of fields are equal if and only if the repaired fields
  are;
* `CollisionFree.ofFields_eq_iff` : without collisions, so are their content hashes.
-/
import Provenance.Proofs.Tree.ContentHash

namespace Provenance

/-- The character that stands for a surrogate without a partner. -/
def CodeUnit.replacement : CodeUnit := 0xFFFD

/-- A unit that is not part of a pair, replaced if it is a surrogate. -/
def CodeUnit.repair (u : CodeUnit) : CodeUnit :=
  if u.isHighSurrogate || u.isLowSurrogate then replacement else u

namespace Text

/-- A text with every surrogate that stands alone replaced. -/
def repair : Text → Text
  | [] => []
  | [u] => [u.repair]
  | u :: v :: rest =>
    if u.isHighSurrogate && v.isLowSurrogate then u :: v :: repair rest
    else u.repair :: repair (v :: rest)

/-! ## One unit -/

/-- A repaired unit is a character by itself. -/
theorem isScalar_repair (u : CodeUnit) : u.repair.isScalar = true := by
  unfold CodeUnit.repair
  split
  · rfl
  · rename_i h
    rw [Bool.or_eq_true, not_or] at h
    rw [CodeUnit.isScalar, Bool.and_eq_true]
    exact ⟨by simpa using h.1, by simpa using h.2⟩

/-- A repaired unit has the bytes of the unit. -/
theorem utf8_repair_unit (u : CodeUnit) : u.repair.utf8 = u.utf8 := by
  unfold CodeUnit.repair
  split
  · rename_i h
    -- a surrogate has three bytes of its own, those of the replacement character
    have hlarge : 0xD800 ≤ u.toNat := by
      rw [Bool.or_eq_true, CodeUnit.isHighSurrogate_iff, CodeUnit.isLowSurrogate_iff] at h
      omega
    have hbytes : CodeUnit.replacement.utf8 = [0xEF, 0xBF, 0xBD] := by decide
    rw [hbytes, CodeUnit.utf8]
    simp only [if_neg (by omega : ¬ u.toNat < 0x80), if_neg (by omega : ¬ u.toNat < 0x800), h,
      if_true]
  · rfl

/-- A unit that is a character by itself needs no repair. -/
theorem repair_of_isScalar {u : CodeUnit} (h : u.isScalar = true) : u.repair = u := by
  rw [CodeUnit.isScalar, Bool.and_eq_true, Bool.not_eq_true', Bool.not_eq_true'] at h
  rw [CodeUnit.repair, h.1, h.2]
  rfl

/-! ## Texts -/

@[simp]
theorem length_repair (t : Text) : t.repair.length = t.length := by
  fun_induction repair t with
  | case1 => rfl
  | case2 u => rfl
  | case3 u v rest _ ih => simp only [List.length_cons, ih]
  | case4 u v rest _ ih => simp only [List.length_cons, ih]

/-- Repair leaves no surrogate alone. -/
theorem wellFormed_repair (t : Text) : t.repair.wellFormed = true := by
  fun_induction repair t with
  | case1 => rfl
  | case2 u => exact wellFormed_cons (isScalar_repair u) []
  | case3 u v rest hpair ih =>
    rw [Bool.and_eq_true] at hpair
    rw [wellFormed, if_pos hpair.1, hpair.2, ih]
    rfl
  | case4 u v rest _ ih => rw [wellFormed_cons (isScalar_repair u), ih]

/-- **A repaired text has the bytes of the text.** -/
theorem utf8_repair (t : Text) : t.repair.utf8 = t.utf8 := by
  fun_induction repair t with
  | case1 => rfl
  | case2 u => rw [utf8, utf8, utf8_repair_unit]
  | case3 u v rest hpair ih =>
    rw [utf8_cons_cons_of_pair _ hpair, utf8_cons_cons_of_pair _ hpair, ih]
  | case4 u v rest hpair ih =>
    have hsingle := isScalar_repair u
    rw [CodeUnit.isScalar, Bool.and_eq_true, Bool.not_eq_true'] at hsingle
    have halone : (u.isHighSurrogate && v.isLowSurrogate) = false := by simpa using hpair
    have hfront : ∀ w ∈ (repair (v :: rest)).head?,
        (u.repair.isHighSurrogate && w.isLowSurrogate) = false := fun w _ => by
      rw [hsingle.1, Bool.false_and]
    rw [utf8_cons_of_not_pair hfront, ih, utf8_repair_unit]
    refine (utf8_cons_of_not_pair fun w hw => ?_).symm
    obtain rfl := Option.some.inj hw
    exact halone

/-- **A well-formed text is left as it is.** -/
theorem repair_eq_self {t : Text} (h : t.wellFormed = true) : t.repair = t := by
  have hbytes : t.repair.utf8 ++ [] = t.utf8 ++ [] := by rw [utf8_repair]
  exact (utf8_append_inj (wellFormed_repair t) h (length_repair t) hbytes).1

/-- A unit that is a character by itself stays in front of a text. -/
theorem repair_cons {u : CodeUnit} (hu : u.isScalar = true) (t : Text) :
    repair (u :: t) = u :: t.repair := by
  cases t with
  | nil => exact congrArg (fun v => [v]) (repair_of_isScalar hu)
  | cons v rest =>
    have hsurrogate := hu
    rw [CodeUnit.isScalar, Bool.and_eq_true, Bool.not_eq_true'] at hsurrogate
    rw [repair, hsurrogate.1, Bool.false_and, if_neg Bool.false_ne_true, repair_of_isScalar hu]

end Text

namespace ContentHash

/-! ## Streams -/

theorem fieldBytes_repair (field : Text) : fieldBytes field.repair = fieldBytes field := by
  rw [fieldBytes, fieldBytes, Text.length_repair, Text.utf8_repair]

theorem stream_repair (fields : List Text) : stream (fields.map Text.repair) = stream fields := by
  simp only [stream, List.flatMap_map, fieldBytes_repair]

/-- **The streams of two lists of fields are equal if and only if the repaired fields are.** -/
theorem stream_eq_iff {fs gs : List Text} :
    stream fs = stream gs ↔ fs.map Text.repair = gs.map Text.repair := by
  have hformed : ∀ fields : List Text, ∀ f ∈ fields.map Text.repair, f.wellFormed = true := by
    intro fields f hf
    obtain ⟨t, -, rfl⟩ := List.mem_map.mp hf
    exact Text.wellFormed_repair t
  constructor
  · intro h
    rw [← stream_repair fs, ← stream_repair gs] at h
    exact stream_inj (hformed fs) (hformed gs) h
  · intro h
    rw [← stream_repair fs, ← stream_repair gs, h]

/-- **Without collisions, the content hashes of two lists of fields are equal if and only if the
repaired fields are.** -/
theorem CollisionFree.ofFields_eq_iff {hashed : List (List Text)} (hfree : CollisionFree hashed)
    {fs gs : List Text} (hfs : fs ∈ hashed) (hgs : gs ∈ hashed) :
    ofFields fs = ofFields gs ↔ fs.map Text.repair = gs.map Text.repair := by
  rw [← stream_eq_iff]
  exact ⟨fun h => hfree fs hfs gs hgs (digest_eq_of_ofFields_eq h), ofFields_eq_of_stream_eq⟩

end ContentHash

end Provenance
