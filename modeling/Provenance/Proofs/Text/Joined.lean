/-
# Bytes of joined texts

A surrogate pair is one character of four bytes, and each of its halves has three bytes where it stands
alone.  So texts that are joined have as many bytes together as they have by themselves, but for two
bytes less wherever a pair is put together.

The main facts:

* `length_utf8_add` : the bytes of a text, counted by its units and its pairs;
* `length_utf8_append` : the bytes of two joined texts;
* `length_utf8_flatten` : the bytes of any number of joined texts.
-/
import Mathlib.Algebra.GroupWithZero.Nat
import Provenance.Proofs.Text.Utf8

namespace Provenance

/-! ## Neighbours -/

section

variable {α : Type} (p : α → α → Bool)

/-- How often two elements stand next to each other that `p` holds of. -/
def neighbours (xs : List α) : Nat := (xs.zip xs.tail).countP fun e => p e.1 e.2

/-- `p` holds of the last element of a list and the first of another. -/
def touches (xs ys : List α) : Bool := xs.getLast?.any fun a => ys.head?.any (p a)

theorem neighbours_cons (a : α) (xs : List α) :
    neighbours p (a :: xs) = neighbours p xs + (xs.head?.any (p a)).toNat := by
  cases xs with
  | nil => rfl
  | cons b rest =>
    unfold neighbours
    rw [List.tail_cons, List.zip_cons_cons, List.countP_cons]
    cases h : p a b <;> simp [h]

/-- Where two lists are joined their neighbours are those of both, and perhaps those that meet. -/
theorem neighbours_append (xs ys : List α) :
    neighbours p (xs ++ ys) = neighbours p xs + neighbours p ys + (touches p xs ys).toNat := by
  induction xs with
  | nil => simp [touches, neighbours]
  | cons a rest ih =>
    rw [List.cons_append, neighbours_cons, neighbours_cons, ih]
    cases rest with
    | nil => simp [touches, neighbours]
    | cons b others =>
      have htouches : touches p (a :: b :: others) ys = touches p (b :: others) ys := by
        unfold touches
        rw [List.getLast?_cons_cons]
      rw [htouches, List.cons_append, List.head?_cons, List.head?_cons]
      omega

end

/-! ## Pairs -/

/-- A unit and the next one are a surrogate pair. -/
def CodeUnit.isPair (u v : CodeUnit) : Bool := u.isHighSurrogate && v.isLowSurrogate

namespace Text

/-- A surrogate pair is put together where two texts are joined. -/
def splitsPair (s t : Text) : Bool := touches CodeUnit.isPair s t

/-- How many surrogate pairs are put together where texts are joined; empty ones keep none apart. -/
def splitPairs (ts : List Text) : Nat := neighbours splitsPair (ts.filter (· ≠ []))

/-- A surrogate that stands alone has three bytes. -/
theorem length_utf8_surrogate {u : CodeUnit} (h : (u.isHighSurrogate || u.isLowSurrogate) = true) :
    u.utf8.length = 3 := by
  have hlarge : 0x800 ≤ u.toNat := by
    rcases Bool.or_eq_true_iff.mp h with hu | hu
    · exact Nat.le_trans (by decide) (CodeUnit.isHighSurrogate_iff.mp hu).1
    · exact Nat.le_trans (by decide) (CodeUnit.isLowSurrogate_iff.mp hu).1
  unfold CodeUnit.utf8
  dsimp only
  rw [if_neg (by omega), if_neg (by omega), if_pos h]
  rfl

/-- A low surrogate is in front of no pair. -/
theorem isPair_of_isLowSurrogate {u : CodeUnit} (h : u.isLowSurrogate = true) (v : CodeUnit) :
    u.isPair v = false := by
  rw [CodeUnit.isLowSurrogate_iff] at h
  rw [CodeUnit.isPair, Bool.and_eq_false_iff, ← Bool.not_eq_true, CodeUnit.isHighSurrogate_iff]
  exact Or.inl (by omega)

/-- **The bytes of a text** are those of its units, but for two of each pair. -/
theorem length_utf8_add (t : Text) :
    t.utf8.length + 2 * neighbours CodeUnit.isPair t = (t.map fun u => u.utf8.length).sum := by
  fun_induction utf8 t with
  | case1 => rfl
  | case2 u => simp [neighbours]
  | case3 u v rest hpair ih =>
    obtain ⟨hu, hv⟩ := Bool.and_eq_true_iff.mp hpair
    -- the second half of the pair begins no other
    have hnext : rest.head?.any v.isPair = false := by
      cases rest with
      | nil => rfl
      | cons w others => exact isPair_of_isLowSurrogate hv w
    have hfirst : (v :: rest).head?.any u.isPair = true := hpair
    rw [neighbours_cons, neighbours_cons, hnext, hfirst, List.map_cons, List.map_cons, List.sum_cons,
      List.sum_cons, ← ih, length_utf8_surrogate (by rw [hu, Bool.true_or]),
      length_utf8_surrogate (by rw [hv, Bool.or_true]), List.length_append]
    have hfour : (utf8Pair u v).length = 4 := rfl
    rw [hfour, Bool.toNat_true, Bool.toNat_false]
    omega
  | case4 u v rest hpair ih =>
    have hfirst : (v :: rest).head?.any u.isPair = false := Bool.eq_false_iff.mpr hpair
    rw [neighbours_cons, hfirst, List.map_cons, List.sum_cons, ← ih, List.length_append,
      Bool.toNat_false]
    omega

/-- **The bytes of two joined texts** are those of both, but for two if a pair is put together. -/
theorem length_utf8_append (s t : Text) :
    (utf8 (s ++ t)).length + 2 * (splitsPair s t).toNat = s.utf8.length + t.utf8.length := by
  have hs := length_utf8_add s
  have ht := length_utf8_add t
  have hjoined := length_utf8_add (s ++ t)
  rw [neighbours_append, List.map_append, List.sum_append] at hjoined
  unfold splitsPair
  omega

/-- The first text that is not empty is what a text touches that stands in front of joined ones. -/
theorem splitsPair_flatten (t : Text) (ts : List Text) :
    (ts.filter (· ≠ [])).head?.any (splitsPair t) = splitsPair t ts.flatten := by
  induction ts with
  | nil => simp [splitsPair, touches]
  | cons s rest ih =>
    cases s with
    | nil => exact ih
    | cons u others => rfl

/-- **The bytes of joined texts** are those of all of them, but for two of each pair that is put
together. -/
theorem length_utf8_flatten (ts : List Text) :
    (utf8 ts.flatten).length + 2 * splitPairs ts = (ts.map fun t => t.utf8.length).sum := by
  induction ts with
  | nil => rfl
  | cons t rest ih =>
    rw [List.flatten_cons, List.map_cons, List.sum_cons, ← ih]
    by_cases ht : t = []
    · subst ht
      show _ + 2 * splitPairs rest = 0 + _
      rw [List.nil_append, Nat.zero_add]
    · have hpairs : splitPairs (t :: rest) =
          splitPairs rest + (splitsPair t rest.flatten).toNat := by
        unfold splitPairs
        rw [List.filter_cons_of_pos (by simpa using ht), neighbours_cons, splitsPair_flatten]
      have happend := length_utf8_append t rest.flatten
      rw [hpairs]
      omega

end Text

end Provenance
