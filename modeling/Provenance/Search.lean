/-
# Binary search

`partitionPoint p xs` halves the list until it has found where the elements that satisfy `p` end.

The main facts:

* `partitionPoint_le` : the point lies in the list or at its end;
* `partitionPoint_append` : on a list whose elements satisfy `p` exactly up to some point, that
  point is found;
* `partitionPoint_map` : the point in a list of images is that in the list.
-/

namespace Provenance

/-- The first point from `low` on, and at most `high`, at which the search finds `p` to fail. -/
def partitionBetween {α : Type} (p : α → Bool) (xs : List α) (low high : Nat) : Nat :=
  if low < high then
    let middle := (low + high) / 2
    if xs[middle]?.any p then partitionBetween p xs (middle + 1) high
    else partitionBetween p xs low middle
  else low
termination_by high - low

/-- The number of elements before the point where the elements that satisfy `p` end. -/
def partitionPoint {α : Type} (p : α → Bool) (xs : List α) : Nat :=
  partitionBetween p xs 0 xs.length

variable {α : Type} (p : α → Bool)

/-- The search ends where it may. -/
theorem partitionBetween_mem (xs : List α) {low high : Nat} (h : low ≤ high) :
    low ≤ partitionBetween p xs low high ∧ partitionBetween p xs low high ≤ high := by
  fun_induction partitionBetween p xs low high with
  | case1 low high hlt middle _ ih => have := ih (by omega); omega
  | case2 low high hlt middle _ ih => have := ih (by omega); omega
  | case3 low high hlt => omega

/-- The point lies in the list or at its end. -/
theorem partitionPoint_le (xs : List α) : partitionPoint p xs ≤ xs.length :=
  (partitionBetween_mem p xs (Nat.zero_le _)).2

/-- The search keeps between its ends every point that separates the elements. -/
theorem partitionBetween_eq (xs : List α) {low high k : Nat} (hlow : low ≤ k) (hhigh : k ≤ high)
    (hlen : high ≤ xs.length)
    (before : ∀ i x, i < k → xs[i]? = some x → p x = true)
    (after : ∀ i x, k ≤ i → xs[i]? = some x → p x = false) :
    partitionBetween p xs low high = k := by
  fun_induction partitionBetween p xs low high with
  | case1 low high hlt middle hp ih =>
    refine ih ?_ hhigh hlen
    by_cases hk : middle < k
    · omega
    · obtain ⟨x, hx⟩ : ∃ x, xs[middle]? = some x := by
        have : middle < xs.length := by omega
        exact ⟨xs[middle], List.getElem?_eq_getElem this⟩
      simp [hx, after middle x (by omega) hx] at hp
  | case2 low high hlt middle hp ih =>
    refine ih hlow ?_ (by omega)
    by_cases hk : middle < k
    · obtain ⟨x, hx⟩ : ∃ x, xs[middle]? = some x := by
        have : middle < xs.length := by omega
        exact ⟨xs[middle], List.getElem?_eq_getElem this⟩
      simp [hx, before middle x hk hx] at hp
    · omega
  | case3 low high hlt => omega

/-- **Binary search finds the separating point.**  If the elements that satisfy `p` are exactly
those before some point, the search returns that point. -/
theorem partitionPoint_append (xs ys : List α) (hx : ∀ x ∈ xs, p x = true)
    (hy : ∀ y ∈ ys, p y = false) : partitionPoint p (xs ++ ys) = xs.length := by
  refine partitionBetween_eq p _ (Nat.zero_le _) (by simp) (Nat.le_refl _) ?_ ?_
  · intro i x hi h
    rw [List.getElem?_append_left hi] at h
    exact hx x (List.mem_of_getElem? h)
  · intro i x hi h
    rw [List.getElem?_append_right hi] at h
    exact hy x (List.mem_of_getElem? h)

/-- Only what the search asks of the elements matters. -/
theorem partitionPoint_map {β : Type} {f : β → α} {q : β → Bool} {xs : List β}
    (h : ∀ x ∈ xs, p (f x) = q x) : partitionPoint p (xs.map f) = partitionPoint q xs := by
  have hany : ∀ i : Nat, (xs.map f)[i]?.any p = xs[i]?.any q := by
    intro i
    rw [List.getElem?_map]
    cases hi : xs[i]? with
    | none => rfl
    | some x => exact h x (List.mem_of_getElem? hi)
  have hbetween : ∀ low high, partitionBetween p (xs.map f) low high =
      partitionBetween q xs low high := by
    intro low high
    fun_induction partitionBetween q xs low high with
    | case1 low high hlt middle hq ih =>
      rw [partitionBetween, if_pos hlt]
      simp only [hany, middle, hq, if_true]
      exact ih
    | case2 low high hlt middle hq ih =>
      rw [partitionBetween, if_pos hlt]
      simp only [hany, middle, hq]
      exact ih
    | case3 low high hlt => rw [partitionBetween, if_neg hlt]
  rw [partitionPoint, partitionPoint, List.length_map, hbetween]

end Provenance
