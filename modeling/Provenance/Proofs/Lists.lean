/-
# Lists

Facts about lists that several parts of the theory use: stable sorting, looking up, finding, joining
lists of one length, and greatest elements.

The main facts:

* `filter_mergeSort`, `lookup_mergeSort` : sorting keeps the order of elements that are equally
  great;
* `eq_of_pairwise_of_filter_eq` : there is one way to put elements in order that keeps the order of
  those that are equally great;
* `exists_map_eq` : a list of images is the image of a list;
* `flatMap_inj_of_length` : lists of one length that are joined are read back;
* `append_cons_inj_of_not_mem` : a list is cut in one way only in front of the first place of an
  element;
* `find?_flatMap_of_first` : what is found first in joined lists;
* `lt_foldl_max_iff`, `le_foldl_max` : what the greatest number of a list is greater than;
* `eq_elim_lookup` : a function that goes through a list for a key is a function of what is found.
-/
import Mathlib.Data.List.Basic

namespace Provenance

variable {α β : Type}

/-! ## Sorting -/

/-- Sorting keeps the order of elements that are equally great. -/
theorem filter_mergeSort {le : α → α → Bool} (htrans : ∀ a b c, le a b → le b c → le a c)
    (htotal : ∀ a b, (le a b || le b a) = true) {q : α → Bool}
    (hq : ∀ a b, q a = true → q b = true → le a b = true) (xs : List α) :
    (xs.mergeSort le).filter q = xs.filter q := by
  have hsub : (xs.filter q).Sublist (xs.mergeSort le) := by
    refine List.sublist_mergeSort htrans htotal ?_ List.filter_sublist
    apply List.pairwise_of_forall_mem_list
    intro a ha b hb
    exact hq a b (List.of_mem_filter ha) (List.of_mem_filter hb)
  have hfilter := hsub.filter q
  rw [List.filter_filter] at hfilter
  simp only [Bool.and_self] at hfilter
  exact (hfilter.eq_of_length ((List.mergeSort_perm xs le).filter q).length_eq.symm).symm

/-- Lists in order are equal if they have the same elements of each key, in the same order. -/
theorem eq_of_pairwise_of_filter_eq {κ : Type} [DecidableEq κ] (key : α → κ) (le : κ → κ → Prop)
    (hrefl : ∀ k, le k k) (hantisymm : ∀ j k, le j k → le k j → j = k) {xs ys : List α}
    (hx : xs.Pairwise fun a b => le (key a) (key b))
    (hy : ys.Pairwise fun a b => le (key a) (key b))
    (h : ∀ k, (xs.filter fun a => key a = k) = ys.filter fun a => key a = k) : xs = ys := by
  -- an element of one list is an element of the other
  have hmem : ∀ {us vs : List α},
      (∀ k, (us.filter fun a => key a = k) = vs.filter fun a => key a = k) → ∀ a ∈ us, a ∈ vs := by
    intro us vs huv a ha
    have hfilter := huv (key a)
    have ha : a ∈ us.filter fun b => key b = key a := List.mem_filter.mpr ⟨ha, by simp⟩
    rw [hfilter] at ha
    exact (List.mem_filter.mp ha).1
  -- the first element of a list in order has a least key
  have hhead : ∀ {a b : α} {us : List α}, ((a :: us).Pairwise fun a b => le (key a) (key b)) →
      b ∈ a :: us → le (key a) (key b) := by
    intro a b us hpairwise hb
    rcases List.mem_cons.mp hb with rfl | hb
    · exact hrefl (key b)
    · exact List.rel_of_pairwise_cons hpairwise hb
  induction xs generalizing ys with
  | nil =>
    cases ys with
    | nil => rfl
    | cons b ys => exact absurd (hmem (fun k => (h k).symm) b List.mem_cons_self) (by simp)
  | cons a xs ih =>
    cases ys with
    | nil => exact absurd (hmem h a List.mem_cons_self) (by simp)
    | cons b ys =>
      have hab := hhead hx (hmem (fun k => (h k).symm) b List.mem_cons_self)
      have hba := hhead hy (hmem h a List.mem_cons_self)
      have hkey := hantisymm _ _ hab hba
      have hfirst := h (key b)
      rw [List.filter_cons_of_pos (by simpa using hkey),
        List.filter_cons_of_pos (by simp)] at hfirst
      obtain ⟨rfl, -⟩ := List.cons.inj hfirst
      rw [ih hx.of_cons hy.of_cons fun k => ?_]
      have hk := h k
      rw [List.filter_cons, List.filter_cons] at hk
      split at hk
      · exact (List.cons.inj hk).2
      · exact hk

/-! ## Joined lists -/

/-- Lists of one length that are joined are read back. -/
theorem flatMap_inj_of_length {f : α → List β} {n : Nat} (hn : 0 < n)
    (hlength : ∀ a, (f a).length = n) (hinj : ∀ a b, f a = f b → a = b) {xs ys : List α}
    (h : xs.flatMap f = ys.flatMap f) : xs = ys := by
  have hne : ∀ (a : α) (rest : List β), f a ++ rest ≠ [] := by
    intro a rest hnil
    have hlen := congrArg List.length hnil
    rw [List.length_append, hlength a, List.length_nil] at hlen
    omega
  induction xs generalizing ys with
  | nil =>
    cases ys with
    | nil => rfl
    | cons y ys => exact absurd h.symm (hne y _)
  | cons x xs ih =>
    cases ys with
    | nil => exact absurd h (hne x _)
    | cons y ys =>
      rw [List.flatMap_cons, List.flatMap_cons] at h
      obtain ⟨hxy, hrest⟩ := List.append_inj h ((hlength x).trans (hlength y).symm)
      rw [hinj x y hxy, ih hrest]

/-- A list is cut in one way only in front of the first place of an element. -/
theorem append_cons_inj_of_not_mem {a : α} {s t x y : List α} (hs : a ∉ s) (ht : a ∉ t)
    (h : s ++ a :: x = t ++ a :: y) : s = t ∧ x = y := by
  induction s generalizing t with
  | nil =>
    cases t with
    | nil => exact ⟨rfl, (List.cons.inj h).2⟩
    | cons b t => exact absurd (List.cons.inj h).1 (List.ne_of_not_mem_cons ht)
  | cons b s ih =>
    cases t with
    | nil => exact absurd (List.cons.inj h).1.symm (List.ne_of_not_mem_cons hs)
    | cons c t =>
      obtain ⟨rfl, hrest⟩ := List.cons.inj h
      obtain ⟨rfl, hxy⟩ :=
        ih (List.not_mem_of_not_mem_cons hs) (List.not_mem_of_not_mem_cons ht) hrest
      exact ⟨rfl, hxy⟩

/-! ## Images -/

/-- A list of values is the image of a list, if each of them is a value. -/
theorem exists_map_eq {f : α → β} {p : α → Prop} {ys : List β}
    (h : ∀ y ∈ ys, ∃ x, p x ∧ f x = y) : ∃ xs : List α, (∀ x ∈ xs, p x) ∧ xs.map f = ys := by
  induction ys with
  | nil => exact ⟨[], by simp, rfl⟩
  | cons y ys ih =>
    obtain ⟨⟨x, hx, hxy⟩, hys⟩ := List.forall_mem_cons.mp h
    obtain ⟨xs, hxs, hmap⟩ := ih hys
    exact ⟨x :: xs, List.forall_mem_cons.mpr ⟨hx, hxs⟩, by rw [List.map_cons, hxy, hmap]⟩

/-- What is found first in joined lists, behind some in which nothing is found. -/
theorem find?_flatMap_of_first {f : α → List β} {p : β → Bool} {before after : List α} {a : α} {b : β}
    (hbefore : ∀ x ∈ before, (f x).find? p = none) (ha : (f a).find? p = some b) :
    ((before ++ a :: after).flatMap f).find? p = some b := by
  have hnone : (before.flatMap f).find? p = none := by
    rw [List.find?_flatMap, List.findSome?_eq_none_iff]
    exact hbefore
  rw [List.flatMap_append, List.flatMap_cons, List.find?_append, List.find?_append, hnone, ha]
  rfl

/-! ## Greatest elements -/

/-- A number is less than the greatest of a list if and only if it is less than one of them. -/
theorem lt_foldl_max_iff {k start : Nat} {ns : List Nat} :
    k < ns.foldl max start ↔ k < start ∨ ∃ n ∈ ns, k < n := by
  induction ns generalizing start with
  | nil => simp
  | cons n rest ih =>
    have hmax : k < max start n ↔ k < start ∨ k < n := by omega
    rw [List.foldl_cons, ih, hmax, or_assoc, List.exists_mem_cons_iff]

/-- The greatest number of a list is at least each of them. -/
theorem le_foldl_max {n : Nat} {ns : List Nat} (h : n ∈ ns) (start : Nat) :
    n ≤ ns.foldl max start := by
  by_contra hlt
  exact Nat.lt_irrefl _ (lt_foldl_max_iff.mpr (Or.inr ⟨n, h, Nat.lt_of_not_le hlt⟩))

/-! ## Looking up -/

variable [BEq α]

/-- What is found under a key is in the list. -/
theorem mem_of_lookup [LawfulBEq α] {entries : List (α × β)} {key : α} {v : β}
    (h : entries.lookup key = some v) : (key, v) ∈ entries := by
  obtain ⟨before, after, rfl, -⟩ := List.lookup_eq_some_iff.mp h
  exact List.mem_append_right before List.mem_cons_self

/-- A function that goes through a list for a key is a function of what is found under the key. -/
theorem eq_elim_lookup [LawfulBEq α] [DecidableEq α] {γ : Type} {key : α} {g : List (α × β) → γ}
    {z : γ} {f : β → γ} (hnil : g [] = z)
    (hcons : ∀ k v rest, g ((k, v) :: rest) = if k = key then f v else g rest)
    (entries : List (α × β)) : g entries = (entries.lookup key).elim z f := by
  induction entries with
  | nil => exact hnil
  | cons entry rest ih =>
    obtain ⟨k, v⟩ := entry
    rw [hcons, List.lookup_cons]
    by_cases hk : k = key
    · rw [if_pos hk, hk, beq_self_eq_true, Option.elim_some]
    · rw [if_neg hk, beq_eq_false_iff_ne.mpr (Ne.symm hk), ih]

/-- Only the entries under a key decide what is found under it. -/
theorem lookup_filter (key : α) (entries : List (α × β)) :
    (entries.filter fun e => key == e.1).lookup key = entries.lookup key := by
  induction entries with
  | nil => rfl
  | cons e rest ih =>
    obtain ⟨k, v⟩ := e
    rw [List.lookup_cons, List.filter_cons]
    cases hk : key == k with
    | true => rw [if_pos rfl, List.lookup_cons, hk]
    | false => rw [if_neg Bool.false_ne_true, ih]

/-- Sorting by keys does not change what is found under a key. -/
theorem lookup_mergeSort [LawfulBEq α] {le : α → α → Bool} (hrefl : ∀ a, le a a = true)
    (htrans : ∀ a b c, le a b → le b c → le a c) (htotal : ∀ a b, (le a b || le b a) = true)
    (key : α) (entries : List (α × β)) :
    (entries.mergeSort fun a b => le a.1 b.1).lookup key = entries.lookup key := by
  rw [← lookup_filter, filter_mergeSort (fun a b c => htrans a.1 b.1 c.1)
    (fun a b => htotal a.1 b.1), lookup_filter]
  intro a b ha hb
  rw [← beq_iff_eq.mp ha, ← beq_iff_eq.mp hb]
  exact hrefl key

end Provenance
