/-
# Laws of edits

Applicable replacements are edits one after the other.  Between them the text stays as it is, so that
an offset outside of the replaced ranges moves by what the edits before it gain.

The main facts:

* `checkReplacements_eq_ok_iff` : replacements that are accepted are edits in order;
* `spliceFrom_append` : edits up to an offset change the text before it only;
* `le_gain_of_le` : offsets outside of the replaced ranges keep their order.
-/
import Mathlib.Algebra.Ring.Int.Defs
import Provenance.Composition.Edit
import Provenance.Proofs.Except
import Provenance.Tree.Check

namespace Provenance

namespace Edit

/-- The edits stand one after the other between two offsets. -/
def InOrder (stop : Nat) : Nat → List Edit → Prop
  | start, [] => start ≤ stop
  | start, e :: rest => start ≤ e.start ∧ e.start ≤ e.stop ∧ InOrder stop e.stop rest

/-- The number of units that a text gains by edits. -/
def totalGain (edits : List Edit) : Int := (edits.map Edit.gain).sum

@[simp] theorem totalGain_nil : totalGain [] = 0 := rfl

@[simp] theorem totalGain_cons (e : Edit) (rest : List Edit) :
    totalGain (e :: rest) = e.gain + totalGain rest := by simp [totalGain]

namespace InOrder

variable {start stop offset : Nat} {edits before after : List Edit} {e : Edit}

theorem start_le_stop (h : InOrder stop start edits) : start ≤ stop := by
  induction edits generalizing start with
  | nil => exact h
  | cons e rest ih => exact Nat.le_trans (Nat.le_trans h.1 h.2.1) (ih h.2.2)

theorem of_le (h : InOrder stop start edits) (hle : offset ≤ start) : InOrder stop offset edits := by
  cases edits with
  | nil => exact Nat.le_trans hle h
  | cons e rest => exact ⟨Nat.le_trans hle h.1, h.2⟩

theorem mem_bounds (h : InOrder stop start edits) (he : e ∈ edits) :
    start ≤ e.start ∧ e.start ≤ e.stop ∧ e.stop ≤ stop := by
  induction edits generalizing start with
  | nil => cases he
  | cons first rest ih =>
    rcases List.mem_cons.mp he with rfl | he
    · exact ⟨h.1, h.2.1, start_le_stop h.2.2⟩
    · have := ih h.2.2 he
      have := h.1
      have := h.2.1
      omega

/-- What stands before an edit ends where it starts. -/
theorem split (h : InOrder stop start (before ++ e :: after)) :
    InOrder e.start start before ∧ InOrder stop e.start (e :: after) := by
  induction before generalizing start with
  | nil => exact ⟨h.1, Nat.le_refl _, h.2⟩
  | cons first rest ih =>
    obtain ⟨hrest, hafter⟩ := ih h.2.2
    exact ⟨⟨h.1, h.2.1, hrest⟩, hafter⟩

/-- Edits are put together at an offset. -/
theorem append (hbefore : InOrder offset start before) (hafter : InOrder stop offset after) :
    InOrder stop start (before ++ after) := by
  induction before generalizing start with
  | nil => exact hafter.of_le hbefore
  | cons first rest ih => exact ⟨hbefore.1, hbefore.2.1, ih hbefore.2.2⟩

end InOrder

end Edit

/-! ## Accepted replacements -/

theorem Replacement.range?_toReplacement (e : Edit) :
    e.toReplacement.range? = some ((e.start : Int), (e.stop : Int)) :=
  range?_eq_some_iff.mpr ⟨(Number.intCast_natCast e.start).symm, (Number.intCast_natCast e.stop).symm,
    Int.natCast_nonneg e.start⟩

/-- A replacement with a range in order says what an edit does. -/
theorem Replacement.toReplacement_of_range? {r : Replacement} {first last : Int}
    (h : r.range? = some (first, last)) (horder : first ≤ last) :
    Edit.toReplacement ⟨first.toNat, last.toNat, r.content, r.name⟩ = r := by
  obtain ⟨hstart, hstop, hnonneg⟩ := range?_eq_some_iff.mp h
  rw [Edit.toReplacement, ← Number.intCast_natCast, ← Number.intCast_natCast,
    Int.toNat_of_nonneg hnonneg, Int.toNat_of_nonneg (Int.le_trans hnonneg horder), ← hstart, ← hstop]

/-- A replacement is applicable as an edit if it says what the edit does, and the edit lies in the text
behind the one before. -/
theorem Replacement.toEdit_eq_ok_iff {r : Replacement} {length start stop : Nat} {e : Edit} :
    r.toEdit length start stop = .ok e ↔
      r = e.toReplacement ∧ start ≤ e.start ∧ stop ≤ e.start ∧ e.start ≤ e.stop ∧
        e.stop ≤ length := by
  constructor
  · intro h
    unfold toEdit at h
    cases hr : r.range? with
    | none => simp [hr] at h
    | some range =>
      obtain ⟨first, last⟩ := range
      obtain ⟨-, -, hnonneg⟩ := range?_eq_some_iff.mp hr
      simp only [hr] at h
      iterate 4
        split at h
        · cases h
      obtain rfl := Except.ok.inj h
      exact ⟨(toReplacement_of_range? hr (by omega)).symm, by simp only; omega, by simp only; omega,
        by simp only; omega, by simp only; omega⟩
  · rintro ⟨rfl, hstart, hstop, hrange, hlength⟩
    rw [toEdit, range?_toReplacement]
    simp only
    rw [if_neg (by omega), if_neg (by omega), if_neg (by omega), if_neg (by omega)]
    rfl

/-- Replacements are accepted if they say what edits in order do. -/
theorem Replacement.checkFrom_eq_ok_iff {length start stop : Nat} {rs : List Replacement}
    {edits : List Edit} (hstart : start ≤ stop) (hstop : stop ≤ length) :
    checkFrom length start stop rs = .ok edits ↔
      Edit.InOrder length stop edits ∧ rs = edits.map Edit.toReplacement := by
  induction rs generalizing start stop edits with
  | nil =>
    constructor
    · intro h
      obtain rfl := Except.ok.inj h
      exact ⟨hstop, rfl⟩
    · rintro ⟨-, h⟩
      rw [List.map_eq_nil_iff.mp h.symm]
      rfl
  | cons r rest ih =>
    rw [checkFrom]
    constructor
    · intro h
      cases he : r.toEdit length start stop with
      | error problem => simp [he] at h
      | ok e =>
        obtain ⟨rfl, -, hlow, hrange, hhigh⟩ := toEdit_eq_ok_iff.mp he
        rw [he] at h
        obtain ⟨others, hothers, h⟩ := bind_eq_ok_iff.mp h
        obtain rfl := Except.ok.inj h
        obtain ⟨horder, rfl⟩ := (ih hrange hhigh).mp hothers
        exact ⟨⟨hlow, hrange, horder⟩, rfl⟩
    · rintro ⟨horder, h⟩
      cases edits with
      | nil => cases h
      | cons e others =>
        obtain ⟨rfl, rfl⟩ := List.cons.inj h
        obtain ⟨hlow, hrange, hothers⟩ := horder
        have hhigh := hothers.start_le_stop
        have he : e.toReplacement.toEdit length start stop = .ok e :=
          toEdit_eq_ok_iff.mpr ⟨rfl, Nat.le_trans hstart hlow, hlow, hrange, hhigh⟩
        simp only [he]
        exact bind_eq_ok_iff.mpr ⟨others, (ih hrange hhigh).mpr ⟨hothers, rfl⟩, rfl⟩

/-- **The replacements of a text that are accepted say what edits in order do.** -/
theorem checkReplacements_eq_ok_iff {t : Text} {rs : List Replacement} {edits : List Edit} :
    checkReplacements t rs = .ok edits ↔
      Edit.InOrder t.length 0 edits ∧ rs = edits.map Edit.toReplacement := by
  rw [← Replacement.checkFrom_eq_ok_iff (Nat.le_refl 0) (Nat.zero_le _), checkReplacements,
    Replacement.check]
  split
  · rename_i accepted h
    rw [h]
    simp
  · rename_i r problem h
    rw [h]
    simp

/-- Edits that replacements were accepted as stand in order. -/
theorem inOrder_of_checkReplacements {t : Text} {rs : List Replacement} {edits : List Edit}
    (h : checkReplacements t rs = .ok edits) : Edit.InOrder t.length 0 edits :=
  (checkReplacements_eq_ok_iff.mp h).1

/-! ## The spliced text -/

namespace Edit

/-- The text from an offset on, with edits made. -/
def spliceFrom (t : Text) (start : Nat) : List Edit → Text
  | [] => t.drop start
  | e :: rest => (t.take e.start).drop start ++ e.content ++ spliceFrom t e.stop rest

theorem flatten_piecesFrom (t : Text) (start : Nat) (edits : List Edit) :
    (Replacement.piecesFrom t (start : Number) (edits.map toReplacement)).flatten =
      spliceFrom t start edits := by
  induction edits generalizing start with
  | nil =>
    rw [List.map_nil, Replacement.piecesFrom, spliceFrom]
    by_cases h : start < t.length
    · rw [if_pos (Number.natCast_lt.mpr h), Text.sliceFrom, Text.clampIndex_natCast,
        Nat.min_eq_left (Nat.le_of_lt h)]
      simp
    · rw [if_neg (fun hlt => h (Number.natCast_lt.mp hlt)), List.drop_eq_nil_of_le (by omega)]
      rfl
  | cons e rest ih =>
    have hcontent : (if e.content = [] then [] else [e.content]).flatten = e.content := by
      split
      · rename_i h
        rw [h]
        rfl
      · simp
    have hfirst : (if (start : Number) < (e.start : Number) then
        [t.slice (start : Number) (e.start : Number)] else []).flatten =
          (t.take e.start).drop start := by
      by_cases h : start < e.start
      · rw [if_pos (Number.natCast_lt.mpr h), Text.slice_natCast]
        simp
      · rw [if_neg (fun hlt => h (Number.natCast_lt.mp hlt)), List.drop_eq_nil_of_le
          (by rw [List.length_take]; omega)]
        rfl
    rw [List.map_cons, Replacement.piecesFrom, List.flatten_append, List.flatten_append, spliceFrom,
      ← ih]
    exact congr (congrArg _ (congr (congrArg _ hfirst) hcontent)) rfl

theorem splice_eq (t : Text) (edits : List Edit) : splice t edits = spliceFrom t 0 edits :=
  flatten_piecesFrom t 0 edits

/-- The length of a text with edits made. -/
theorem length_spliceFrom {t : Text} {start : Nat} {edits : List Edit}
    (h : InOrder t.length start edits) :
    ((spliceFrom t start edits).length : Int) = t.length - start + totalGain edits := by
  induction edits generalizing start with
  | nil =>
    have := h.start_le_stop
    rw [spliceFrom, List.length_drop, totalGain_nil]
    omega
  | cons e rest ih =>
    have hrest := ih h.2.2
    have := h.1
    have := h.2.1
    have := h.2.2.start_le_stop
    rw [spliceFrom, List.length_append, List.length_append, List.length_drop, List.length_take,
      totalGain_cons, gain]
    omega

end Edit

/-! ## What is gained before an offset -/

namespace Composition

open Edit (InOrder totalGain)

variable {start stop offset : Nat} {edits : List Edit}

/-- Edits that end at or before an offset are all before it. -/
theorem gainBefore_eq_totalGain (h : ∀ e ∈ edits, e.stop ≤ offset) :
    gainBefore offset edits = totalGain edits := by
  induction edits with
  | nil => rfl
  | cons e rest ih =>
    obtain ⟨he, hrest⟩ := List.forall_mem_cons.mp h
    rw [gainBefore, if_pos he, ih hrest, Edit.totalGain_cons]

/-- Edits that end behind an offset are not before it. -/
theorem gainBefore_eq_zero (h : ∀ e ∈ edits, offset < e.stop) : gainBefore offset edits = 0 := by
  induction edits with
  | nil => rfl
  | cons e rest ih =>
    obtain ⟨he, hrest⟩ := List.forall_mem_cons.mp h
    rw [gainBefore, if_neg (Nat.not_le.mpr he), ih hrest]
    rfl

/-- Edits move no offset to before where they start. -/
theorem le_add_gainBefore (h : InOrder stop start edits) (hle : start ≤ offset) :
    (start : Int) ≤ offset + gainBefore offset edits := by
  induction edits generalizing start with
  | nil =>
    rw [gainBefore]
    omega
  | cons e rest ih =>
    obtain ⟨hlow, hrange, hrest⟩ := h
    rw [gainBefore]
    split
    · rename_i hstop
      have := ih hrest hstop
      rw [Edit.gain]
      omega
    · rename_i hstop
      have hnone : gainBefore offset rest = 0 := gainBefore_eq_zero fun e' he' => by
        have := hrest.mem_bounds he'
        omega
      rw [hnone]
      omega

/-- Offsets outside of the replaced ranges keep their order. -/
theorem le_gain_of_le (h : InOrder stop start edits) {a b : Nat} (hab : a ≤ b)
    (hkept : isReplaced edits a = false) :
    (a : Int) + gainBefore a edits ≤ b + gainBefore b edits := by
  induction edits generalizing start with
  | nil =>
    simp only [gainBefore]
    omega
  | cons e rest ih =>
    obtain ⟨hlow, hrange, hrest⟩ := h
    simp only [isReplaced, List.any_cons, Bool.or_eq_false_iff] at hkept
    have ih := ih hrest hkept.2
    by_cases hstop : e.stop ≤ a
    · rw [gainBefore, gainBefore, if_pos hstop, if_pos (Nat.le_trans hstop hab)]
      omega
    · -- `a` stands before this edit, and so before all that come after
      have ha : a ≤ e.start := by
        have := hkept.1
        simp only [Bool.and_eq_false_iff, decide_eq_false_iff_not] at this
        omega
      have hnone : gainBefore a (e :: rest) = 0 := gainBefore_eq_zero fun e' he' => by
        rcases List.mem_cons.mp he' with rfl | he'
        · omega
        · have := hrest.mem_bounds he'
          omega
      have hfrom : InOrder stop a (e :: rest) := ⟨ha, hrange, hrest⟩
      have := le_add_gainBefore hfrom hab
      rw [hnone]
      omega

end Composition

end Provenance
