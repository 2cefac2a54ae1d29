/-
# Reading UTF-8

The bytes of a well-formed text tell where each of its characters ends.  Of two well-formed texts of
one length in front of other bytes, equal bytes give equal texts and leave equal rests.

The main facts:

* `utf8_unit_append_inj`, `utf8_pair_append_inj` : the bytes of one character;
* `wellFormed_append` : what is joined of well-formed texts is well formed;
* `utf8_append_inj` : the bytes of a well-formed text;
* `utf8_inj_of_isAscii` : the bytes of an ASCII text are those of no other text of its length.
-/
import Provenance.Text.Utf8

namespace Provenance

/-- Bytes made of naturals are equal only if these are. -/
theorem toUInt8_inj {a b : Nat} (ha : a < 256) (hb : b < 256) : a.toUInt8 = b.toUInt8 ↔ a = b := by
  constructor
  · intro h
    have h := congrArg UInt8.toNat h
    simpa [Nat.toUInt8, UInt8.toNat_ofNat', Nat.mod_eq_of_lt ha, Nat.mod_eq_of_lt hb] using h
  · rintro rfl
    rfl

namespace CodeUnit

theorem isHighSurrogate_iff {u : CodeUnit} :
    u.isHighSurrogate = true ↔ 0xD800 ≤ u.toNat ∧ u.toNat ≤ 0xDBFF := by
  rw [isHighSurrogate, Bool.and_eq_true, decide_eq_true_eq, decide_eq_true_eq,
    UInt16.le_iff_toNat_le, UInt16.le_iff_toNat_le]
  rfl

theorem isLowSurrogate_iff {u : CodeUnit} :
    u.isLowSurrogate = true ↔ 0xDC00 ≤ u.toNat ∧ u.toNat ≤ 0xDFFF := by
  rw [isLowSurrogate, Bool.and_eq_true, decide_eq_true_eq, decide_eq_true_eq,
    UInt16.le_iff_toNat_le, UInt16.le_iff_toNat_le]
  rfl

/-- A unit that is a character by itself. -/
def isScalar (u : CodeUnit) : Bool := !u.isHighSurrogate && !u.isLowSurrogate

theorem isScalar_iff {u : CodeUnit} :
    u.isScalar = true ↔ u.toNat < 0xD800 ∨ 0xDFFF < u.toNat := by
  rw [isScalar, Bool.and_eq_true, Bool.not_eq_true', Bool.not_eq_true', ← Bool.not_eq_true,
    ← Bool.not_eq_true, isHighSurrogate_iff, isLowSurrogate_iff]
  omega

/-- The bytes of a unit that is a character by itself. -/
theorem utf8_of_isScalar {u : CodeUnit} (h : u.isScalar = true) :
    u.utf8 =
      if u.toNat < 0x80 then [u.toNat.toUInt8]
      else if u.toNat < 0x800 then
        [(0xC0 + u.toNat / 0x40).toUInt8, (0x80 + u.toNat % 0x40).toUInt8]
      else
        [(0xE0 + u.toNat / 0x1000).toUInt8, (0x80 + u.toNat / 0x40 % 0x40).toUInt8,
          (0x80 + u.toNat % 0x40).toUInt8] := by
  have hsurrogate : (u.isHighSurrogate || u.isLowSurrogate) = false := by
    rw [isScalar, Bool.and_eq_true, Bool.not_eq_true', Bool.not_eq_true'] at h
    rw [h.1, h.2]
    rfl
  unfold utf8
  simp only [hsurrogate, Bool.false_eq_true, if_false]

end CodeUnit

namespace Text

open CodeUnit (isScalar)

/-! ## One character -/

/-- The first byte of a character tells how many bytes it has. -/
theorem utf8_unit_append_inj {u v : CodeUnit} (hu : u.isScalar = true) (hv : v.isScalar = true)
    {x y : List UInt8} (h : u.utf8 ++ x = v.utf8 ++ y) : u = v ∧ x = y := by
  have hu16 : u.toNat < 65536 := u.toNat_lt
  have hv16 : v.toNat < 65536 := v.toNat_lt
  have heq : u.toNat = v.toNat ∧ x = y := by
    rw [CodeUnit.utf8_of_isScalar hu, CodeUnit.utf8_of_isScalar hv] at h
    -- the first byte is below 0x80, below 0xE0 or below 0xF0, so only like meets like
    split at h <;> split at h <;> (try split at h) <;> (try split at h)
    all_goals simp (disch := omega) only [List.cons_append, List.nil_append, List.cons.injEq,
      toUInt8_inj] at h
    · exact h
    · omega
    · omega
    · omega
    · exact ⟨by omega, h.2.2⟩
    · omega
    · omega
    · omega
    · exact ⟨by omega, h.2.2.2⟩
  exact ⟨UInt16.toNat_inj.mp heq.1, heq.2⟩

/-- A surrogate pair stands for a code point beyond the basic plane. -/
theorem pairPoint_bounds {u v : CodeUnit} (hu : u.isHighSurrogate = true)
    (hv : v.isLowSurrogate = true) : 0x10000 ≤ pairPoint u v ∧ pairPoint u v ≤ 0x10FFFF := by
  rw [CodeUnit.isHighSurrogate_iff] at hu
  rw [CodeUnit.isLowSurrogate_iff] at hv
  unfold pairPoint
  omega

/-- The bytes of a surrogate pair tell which it is. -/
theorem utf8_pair_append_inj {u v u' v' : CodeUnit} (hu : u.isHighSurrogate = true)
    (hv : v.isLowSurrogate = true) (hu' : u'.isHighSurrogate = true)
    (hv' : v'.isLowSurrogate = true) {x y : List UInt8}
    (h : utf8Pair u v ++ x = utf8Pair u' v' ++ y) : u = u' ∧ v = v' ∧ x = y := by
  have hbounds := pairPoint_bounds hu hv
  have hbounds' := pairPoint_bounds hu' hv'
  have hpoint : pairPoint u v = pairPoint u' v' ∧ x = y := by
    unfold utf8Pair at h
    generalize pairPoint u v = n at *
    generalize pairPoint u' v' = n' at *
    simp (disch := omega) only [List.cons_append, List.nil_append, List.cons.injEq,
      toUInt8_inj] at h
    exact ⟨by omega, h.2.2.2.2⟩
  rw [CodeUnit.isHighSurrogate_iff] at hu hu'
  rw [CodeUnit.isLowSurrogate_iff] at hv hv'
  obtain ⟨hpoint, hrest⟩ := hpoint
  unfold pairPoint at hpoint
  have hhigh : u.toNat = u'.toNat := by omega
  have hlow : v.toNat = v'.toNat := by omega
  exact ⟨UInt16.toNat_inj.mp hhigh, UInt16.toNat_inj.mp hlow, hrest⟩

/-- A unit that is a character by itself and a surrogate pair start with different bytes. -/
theorem utf8_unit_ne_pair {u v w : CodeUnit} (hu : u.isScalar = true)
    (hv : v.isHighSurrogate = true) (hw : w.isLowSurrogate = true) (x y : List UInt8) :
    u.utf8 ++ x ≠ utf8Pair v w ++ y := by
  intro h
  have hu16 : u.toNat < 65536 := u.toNat_lt
  have hbounds := pairPoint_bounds hv hw
  rw [CodeUnit.utf8_of_isScalar hu] at h
  unfold utf8Pair at h
  generalize pairPoint v w = n at *
  split at h <;> (try split at h)
  all_goals
    simp (disch := omega) only [List.cons_append, List.nil_append, List.cons.injEq,
      toUInt8_inj] at h
    omega

/-! ## Texts -/

/-- A well-formed text is empty, or starts with a unit that is a character by itself, or with a
surrogate pair. -/
theorem wellFormed_cases {t : Text} (h : t.wellFormed = true) :
    t = [] ∨
      (∃ u rest, t = u :: rest ∧ u.isScalar = true ∧ wellFormed rest = true ∧
        t.utf8 = u.utf8 ++ utf8 rest) ∨
      (∃ u v rest, t = u :: v :: rest ∧ u.isHighSurrogate = true ∧ v.isLowSurrogate = true ∧
        wellFormed rest = true ∧ t.utf8 = utf8Pair u v ++ utf8 rest) := by
  match t with
  | [] => exact Or.inl rfl
  | [u] =>
    refine Or.inr (Or.inl ⟨u, [], rfl, ?_, rfl, by simp [utf8]⟩)
    simpa [wellFormed, isScalar] using h
  | u :: v :: rest =>
    rw [wellFormed] at h
    by_cases hu : u.isHighSurrogate = true
    · rw [if_pos hu, Bool.and_eq_true] at h
      exact Or.inr (Or.inr ⟨u, v, rest, rfl, hu, h.1, h.2,
        utf8_cons_cons_of_pair rest (by rw [hu, h.1, Bool.and_self])⟩)
    · rw [if_neg hu, Bool.and_eq_true] at h
      refine Or.inr (Or.inl ⟨u, v :: rest, rfl, ?_, h.2, utf8_cons_of_not_pair fun w _ => ?_⟩)
      · rw [isScalar, Bool.and_eq_true]
        exact ⟨by simpa using hu, h.1⟩
      · rw [Bool.eq_false_iff.mpr hu, Bool.false_and]

/-- What follows a well-formed text is well formed or not as it is by itself. -/
theorem wellFormed_append_eq {s : Text} (hs : s.wellFormed = true) (t : Text) :
    wellFormed (s ++ t) = t.wellFormed := by
  induction hn : s.length using Nat.strongRecOn generalizing s with
  | ind n ih =>
    subst hn
    rcases wellFormed_cases hs with rfl | ⟨u, rest, rfl, hu, hrest, -⟩ |
      ⟨u, v, rest, rfl, hu, hv, hrest, -⟩
    · rfl
    · have hnext := ih _ (Nat.lt_succ_self _) hrest rfl
      rw [isScalar, Bool.and_eq_true, Bool.not_eq_true', Bool.not_eq_true'] at hu
      rw [List.cons_append]
      cases hjoined : rest ++ t with
      | nil =>
        obtain ⟨rfl, rfl⟩ := List.append_eq_nil_iff.mp hjoined
        simp [wellFormed, hu.1, hu.2]
      | cons v others =>
        rw [wellFormed, hu.1, hu.2, ← hjoined, hnext]
        rfl
    · have hless : rest.length < (u :: v :: rest).length := Nat.lt_succ_of_lt (Nat.lt_succ_self _)
      rw [List.cons_append, List.cons_append, wellFormed, if_pos hu, hv, ih _ hless hrest rfl]
      rfl

/-- What is joined of well-formed texts is well formed. -/
theorem wellFormed_append {s t : Text} (hs : s.wellFormed = true) (ht : t.wellFormed = true) :
    wellFormed (s ++ t) = true := (wellFormed_append_eq hs t).trans ht

/-- **Of two well-formed texts of one length, equal bytes give equal texts.**  The bytes that follow
are equal, too. -/
theorem utf8_append_inj {s t : Text} (hs : s.wellFormed = true) (ht : t.wellFormed = true)
    (hlength : s.length = t.length) {x y : List UInt8} (h : s.utf8 ++ x = t.utf8 ++ y) :
    s = t ∧ x = y := by
  -- one character at a time, which takes one unit or two off both texts
  induction hn : s.length using Nat.strongRecOn generalizing s t with
  | ind n ih =>
    subst hn
    rcases wellFormed_cases hs with rfl | ⟨u, rest, rfl, hu, hrest, hbytes⟩ |
      ⟨u, v, rest, rfl, hu, hv, hrest, hbytes⟩
    · obtain rfl : t = [] := List.length_eq_zero_iff.mp hlength.symm
      exact ⟨rfl, h⟩
    · rw [hbytes, List.append_assoc] at h
      rcases wellFormed_cases ht with rfl | ⟨u', rest', rfl, hu', hrest', hbytes'⟩ |
        ⟨u', v', rest', rfl, hu', hv', hrest', hbytes'⟩
      · cases hlength
      · rw [hbytes', List.append_assoc] at h
        obtain ⟨rfl, hnext⟩ := utf8_unit_append_inj hu hu' h
        obtain ⟨rfl, hxy⟩ := ih _ (Nat.lt_succ_self _) hrest hrest' (Nat.succ.inj hlength) hnext rfl
        exact ⟨rfl, hxy⟩
      · rw [hbytes', List.append_assoc] at h
        exact absurd h (utf8_unit_ne_pair hu hu' hv' _ _)
    · rw [hbytes, List.append_assoc] at h
      rcases wellFormed_cases ht with rfl | ⟨u', rest', rfl, hu', hrest', hbytes'⟩ |
        ⟨u', v', rest', rfl, hu', hv', hrest', hbytes'⟩
      · cases hlength
      · rw [hbytes', List.append_assoc] at h
        exact absurd h.symm (utf8_unit_ne_pair hu' hu hv _ _)
      · rw [hbytes', List.append_assoc] at h
        obtain ⟨rfl, rfl, hnext⟩ := utf8_pair_append_inj hu hv hu' hv' h
        have hless : rest.length < (u :: v :: rest).length := Nat.lt_succ_of_lt (Nat.lt_succ_self _)
        obtain ⟨rfl, hxy⟩ :=
          ih _ hless hrest hrest' (Nat.succ.inj (Nat.succ.inj hlength)) hnext rfl
        exact ⟨rfl, hxy⟩

/-! ## ASCII -/

/-- Every unit of a text is below 0x80. -/
def isAscii (t : Text) : Bool := t.all fun u => u.toNat < 0x80

theorem isAscii_iff {t : Text} : t.isAscii = true ↔ ∀ u ∈ t, u.toNat < 0x80 := by
  simp [isAscii]

theorem isAscii_append {s t : Text} (hs : s.isAscii = true) (ht : t.isAscii = true) :
    isAscii (s ++ t) = true := by
  rw [isAscii, List.all_append, Bool.and_eq_true]
  exact ⟨hs, ht⟩

/-- An ASCII unit is a character by itself. -/
theorem isScalar_of_lt {u : CodeUnit} (h : u.toNat < 0x80) : u.isScalar = true :=
  CodeUnit.isScalar_iff.mpr (Or.inl (by omega))

/-- A unit that is a character by itself may stand in front of every text. -/
theorem wellFormed_cons {u : CodeUnit} (hu : u.isScalar = true) (t : Text) :
    wellFormed (u :: t) = t.wellFormed := by
  refine wellFormed_append_eq (s := [u]) ?_ t
  rw [isScalar, Bool.and_eq_true] at hu
  rw [wellFormed, hu.1, hu.2]
  rfl

theorem wellFormed_of_isAscii {t : Text} (h : t.isAscii = true) : t.wellFormed = true := by
  rw [isAscii_iff] at h
  induction t with
  | nil => rfl
  | cons u rest ih =>
    obtain ⟨hu, hrest⟩ := List.forall_mem_cons.mp h
    rw [wellFormed_cons (isScalar_of_lt hu), ih hrest]

/-- The bytes of an ASCII text are its units. -/
theorem utf8_of_isAscii {t : Text} (h : t.isAscii = true) :
    t.utf8 = t.map fun u => u.toNat.toUInt8 := by
  rw [isAscii_iff] at h
  induction t with
  | nil => rfl
  | cons u rest ih =>
    obtain ⟨hu, hrest⟩ := List.forall_mem_cons.mp h
    have hhigh : u.isHighSurrogate = false := by
      rw [← Bool.not_eq_true, CodeUnit.isHighSurrogate_iff]
      omega
    rw [utf8_cons_of_not_pair fun v _ => by rw [hhigh, Bool.false_and], ih hrest, CodeUnit.utf8,
      List.map_cons]
    simp only [hu, if_true]
    rfl

/-- The first byte of a unit beyond ASCII is not an ASCII one. -/
theorem lt_of_utf8_lt {u : CodeUnit} (h : ∀ b ∈ u.utf8, b.toNat < 0x80) : u.toNat < 0x80 := by
  have hu16 : u.toNat < 65536 := u.toNat_lt
  unfold CodeUnit.utf8 at h
  dsimp only at h
  split at h
  · assumption
  · split at h
    · have hfirst := h _ List.mem_cons_self
      rw [Nat.toUInt8, UInt8.toNat_ofNat', Nat.mod_eq_of_lt (by omega)] at hfirst
      omega
    · split at h
      · exact absurd (h _ List.mem_cons_self) (by decide)
      · have hfirst := h _ List.mem_cons_self
        rw [Nat.toUInt8, UInt8.toNat_ofNat', Nat.mod_eq_of_lt (by omega)] at hfirst
        omega

/-- A text with ASCII bytes is an ASCII text. -/
theorem isAscii_of_utf8 {t : Text} (h : ∀ b ∈ t.utf8, b.toNat < 0x80) : t.isAscii = true := by
  rw [isAscii_iff]
  fun_induction utf8 t with
  | case1 => simp
  | case2 u =>
    intro w hw
    rw [List.mem_singleton.mp hw]
    exact lt_of_utf8_lt h
  | case3 u v rest hpair ih =>
    rw [Bool.and_eq_true] at hpair
    have hbounds := pairPoint_bounds hpair.1 hpair.2
    have hfirst := h _ (List.mem_append_left _ List.mem_cons_self)
    rw [Nat.toUInt8, UInt8.toNat_ofNat', Nat.mod_eq_of_lt (by omega)] at hfirst
    omega
  | case4 u v rest hpair ih =>
    obtain ⟨hu, hrest⟩ := List.forall_mem_append.mp h
    exact List.forall_mem_cons.mpr ⟨lt_of_utf8_lt hu, ih hrest⟩

/-- **The bytes of an ASCII text are those of no other text of its length**, well formed or not. -/
theorem utf8_inj_of_isAscii {s t : Text} (hs : s.isAscii = true) (hlength : s.length = t.length)
    (h : s.utf8 = t.utf8) : s = t := by
  -- the other text has the same bytes, so it is ASCII as well
  have ht : t.isAscii = true := by
    apply isAscii_of_utf8
    intro b hb
    rw [← h, utf8_of_isAscii hs] at hb
    obtain ⟨u, hu, rfl⟩ := List.mem_map.mp hb
    have hsmall := isAscii_iff.mp hs u hu
    rw [Nat.toUInt8, UInt8.toNat_ofNat', Nat.mod_eq_of_lt (by omega)]
    exact hsmall
  have hbytes : s.utf8 ++ [] = t.utf8 ++ [] := by rw [h]
  exact (utf8_append_inj (wellFormed_of_isAscii hs) (wellFormed_of_isAscii ht) hlength hbytes).1

end Text

end Provenance
