/-
# What a search looks at

Binary search looks at one element for each halving.  It looks between its ends only, and what it does
not look at does not matter.

The main facts:

* `mem_probesBetween` : the search looks between its ends only;
* `length_probesBetween_le` : fewer than 2^k elements are searched in at most k steps;
* `partitionBetween_congr` : lists that agree where the search looks are searched alike;
* `lt_partitionPoint_iff` : in a list whose elements satisfy a condition up to some point, an element
  stands before the point that is found if and only if it satisfies the condition.
-/
import Mathlib.Algebra.Group.Nat.Defs
import Mathlib.Data.List.TakeWhile
import Provenance.Search

namespace Provenance

variable {α : Type} {p : α → Bool} {xs ys : List α} {low high i k : Nat} {x : α}

/-- The indices at which the search looks, in order. -/
def probesBetween (p : α → Bool) (xs : List α) (low high : Nat) : List Nat :=
  if low < high then
    let middle := (low + high) / 2
    if xs[middle]?.any p then middle :: probesBetween p xs (middle + 1) high
    else middle :: probesBetween p xs low middle
  else []
termination_by high - low

/-- The search looks between its ends only. -/
theorem mem_probesBetween (h : i ∈ probesBetween p xs low high) : low ≤ i ∧ i < high := by
  fun_induction probesBetween p xs low high with
  | case1 low high hlt middle hp ih =>
    rcases List.mem_cons.mp h with rfl | h
    · omega
    · have := ih h
      omega
  | case2 low high hlt middle hp ih =>
    rcases List.mem_cons.mp h with rfl | h
    · omega
    · have := ih h
      omega
  | case3 => cases h

/-- **Fewer than 2^k elements are searched in at most k steps.** -/
theorem length_probesBetween_le (h : high - low < 2 ^ k) :
    (probesBetween p xs low high).length ≤ k := by
  induction k generalizing low high with
  | zero =>
    rw [probesBetween, if_neg (by omega)]
    exact Nat.le_refl 0
  | succ k ih =>
    rw [Nat.pow_succ] at h
    unfold probesBetween
    dsimp only
    split
    · split
      · exact Nat.succ_le_succ (ih (by omega))
      · exact Nat.succ_le_succ (ih (by omega))
    · exact Nat.zero_le (k + 1)

/-- **What the search does not look at does not matter.** -/
theorem partitionBetween_congr (h : ∀ i ∈ probesBetween p xs low high, ys[i]? = xs[i]?) :
    partitionBetween p ys low high = partitionBetween p xs low high := by
  fun_induction probesBetween p xs low high with
  | case1 low high hlt middle hp ih =>
    obtain ⟨hmiddle, hrest⟩ := List.forall_mem_cons.mp h
    rw [partitionBetween, partitionBetween.eq_def p xs, if_pos hlt, if_pos hlt]
    simp only [middle] at hmiddle hp
    simp only [hmiddle, hp, if_true]
    exact ih hrest
  | case2 low high hlt middle hp ih =>
    obtain ⟨hmiddle, hrest⟩ := List.forall_mem_cons.mp h
    rw [partitionBetween, partitionBetween.eq_def p xs, if_pos hlt, if_pos hlt]
    simp only [middle] at hmiddle hp
    simp only [hmiddle, if_neg hp]
    exact ih hrest
  | case3 low high hlt =>
    rw [partitionBetween, partitionBetween.eq_def p xs, if_neg hlt, if_neg hlt]

/-- Behind an element that fails a condition no element satisfies it, if an element that does so only
follows elements that do. -/
theorem eq_false_of_mem_dropWhile (h : xs.Pairwise fun a b => p b = true → p a = true)
    (hx : x ∈ xs.dropWhile p) : p x = false := by
  induction xs with
  | nil => cases hx
  | cons a rest ih =>
    obtain ⟨ha, hrest⟩ := List.pairwise_cons.mp h
    rw [List.dropWhile_cons] at hx
    split at hx
    · exact ih hrest hx
    · rename_i hpa
      rcases List.mem_cons.mp hx with rfl | hx
      · exact Bool.eq_false_iff.mpr hpa
      · exact Bool.eq_false_iff.mpr fun hpx => hpa (ha x hx hpx)

/-- **The point that is found tells the elements apart.** -/
theorem lt_partitionPoint_iff (h : xs.Pairwise fun a b => p b = true → p a = true)
    (hx : xs[i]? = some x) : i < partitionPoint p xs ↔ p x = true := by
  have hbefore : ∀ y ∈ xs.takeWhile p, p y = true := fun y hy => List.mem_takeWhile_imp hy
  have hafter : ∀ y ∈ xs.dropWhile p, p y = false := fun y hy => eq_false_of_mem_dropWhile h hy
  have hpoint := partitionPoint_append p _ _ hbefore hafter
  rw [List.takeWhile_append_dropWhile] at hpoint
  rw [← List.takeWhile_append_dropWhile (p := p) (l := xs)] at hx
  rw [hpoint]
  constructor
  · intro hi
    rw [List.getElem?_append_left hi] at hx
    exact hbefore x (List.mem_of_getElem? hx)
  · intro hp
    by_contra hi
    rw [List.getElem?_append_right (Nat.le_of_not_lt hi)] at hx
    rw [hafter x (List.mem_of_getElem? hx)] at hp
    cases hp

end Provenance
