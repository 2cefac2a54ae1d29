/-
# The latest of the greatest

Where several elements of a list apply, the one that counts is the one with the greatest key, and of
those with one key the last one in the list.

The main facts:

* `latest_append` : the latest of a joined list is the later of the latest of its parts;
* `latest_eq_some_iff` : the element that counts, by what stands before and behind it;
* `latest_of_perm` : elements may be moved as long as those with one key keep their order.
-/
import Mathlib.Data.List.Basic
import Mathlib.Data.List.Forall2

namespace Provenance

variable {α β : Type}

/-- Of two candidates the second, unless the first has a greater key. -/
def preferLater (key : α → Nat) : Option α → Option α → Option α
  | none, y => y
  | some x, none => some x
  | some x, some y => if key y < key x then some x else some y

/-- The last of the elements that have the greatest key among those that satisfy `p`. -/
def latest (p : α → Bool) (key : α → Nat) : List α → Option α
  | [] => none
  | x :: rest => preferLater key (if p x then some x else none) (latest p key rest)

/-! ## Two candidates -/

@[simp] theorem preferLater_none_left (key : α → Nat) (y : Option α) :
    preferLater key none y = y := rfl

@[simp] theorem preferLater_none_right (key : α → Nat) (x : Option α) :
    preferLater key x none = x := by
  cases x <;> rfl

/-- The candidate that counts is the second, or a first one that is greater. -/
theorem preferLater_eq_some_iff {key : α → Nat} {x y : Option α} {z : α} :
    preferLater key x y = some z ↔
      (y = some z ∧ ∀ a ∈ x, key a ≤ key z) ∨ (x = some z ∧ ∀ b ∈ y, key b < key z) := by
  cases x with
  | none => simp
  | some a =>
    cases y with
    | none => simp
    | some b =>
      simp only [preferLater, Option.some.injEq, Option.mem_def, forall_eq']
      by_cases h : key b < key a
      · rw [if_pos h, Option.some.injEq]
        constructor
        · rintro rfl
          exact Or.inr ⟨rfl, h⟩
        · rintro (⟨rfl, hle⟩ | ⟨ha, -⟩)
          · omega
          · exact ha
      · rw [if_neg h, Option.some.injEq]
        constructor
        · rintro rfl
          exact Or.inl ⟨rfl, Nat.not_lt.mp h⟩
        · rintro (⟨hb, -⟩ | ⟨rfl, hlt⟩)
          · exact hb
          · omega

theorem preferLater_assoc (key : α → Nat) (x y z : Option α) :
    preferLater key (preferLater key x y) z = preferLater key x (preferLater key y z) := by
  cases x with
  | none => rfl
  | some x =>
    cases y with
    | none => rfl
    | some y =>
      cases z with
      | none => simp
      | some z =>
        simp only [preferLater]
        by_cases hxy : key y < key x
        · by_cases hyz : key z < key y
          · have hxz : key z < key x := by omega
            simp [hxy, hyz, hxz]
          · simp [hxy, hyz]
        · by_cases hyz : key z < key y
          · simp [hxy, hyz]
          · have hxz : ¬ key z < key x := by omega
            simp [hxy, hyz, hxz]

/-- No candidate is greater than the one that counts. -/
theorem exists_preferLater {key : α → Nat} {x y : Option α} {a : α} (h : a ∈ x ∨ a ∈ y) :
    ∃ z ∈ preferLater key x y, key a ≤ key z := by
  cases x with
  | none => exact ⟨a, by simpa using h, Nat.le_refl _⟩
  | some x =>
    cases y with
    | none => exact ⟨a, by simpa using h, Nat.le_refl _⟩
    | some y =>
      simp only [Option.mem_some_iff] at h
      by_cases hlt : key y < key x
      · exact ⟨x, by simp [preferLater, hlt], by rcases h with rfl | rfl <;> omega⟩
      · exact ⟨y, by simp [preferLater, hlt], by rcases h with rfl | rfl <;> omega⟩

/-! ## Lists of candidates -/

variable {p : α → Bool} {key : α → Nat}

/-- The latest of a joined list is the later of the latest of its parts. -/
theorem latest_append (xs ys : List α) :
    latest p key (xs ++ ys) = preferLater key (latest p key xs) (latest p key ys) := by
  induction xs with
  | nil => rfl
  | cons x rest ih => rw [List.cons_append, latest, ih, latest, preferLater_assoc]

/-- Where no element applies, none counts. -/
theorem latest_eq_none {xs : List α} (h : ∀ x ∈ xs, p x = false) : latest p key xs = none := by
  induction xs with
  | nil => rfl
  | cons x rest ih =>
    rw [latest, h x (List.mem_cons_self ..), ih fun y hy => h y (List.mem_cons_of_mem x hy)]
    rfl

/-- No element that applies is greater than the one that counts. -/
theorem exists_latest {xs : List α} {x : α} (hx : x ∈ xs) (hp : p x = true) :
    ∃ z ∈ latest p key xs, key x ≤ key z := by
  induction xs with
  | nil => simp at hx
  | cons a rest ih =>
    rcases List.mem_cons.mp hx with rfl | hx
    · exact exists_preferLater (Or.inl (by simp [hp]))
    · obtain ⟨z, hz, hle⟩ := ih hx
      obtain ⟨w, hw, hle'⟩ : ∃ w ∈ latest p key (a :: rest), key z ≤ key w :=
        exists_preferLater (Or.inr hz)
      exact ⟨w, hw, Nat.le_trans hle hle'⟩

/-- The element that counts is one of the list and applies. -/
theorem mem_of_latest {xs : List α} {x : α} (h : latest p key xs = some x) :
    x ∈ xs ∧ p x = true := by
  induction xs with
  | nil => simp [latest] at h
  | cons a rest ih =>
    rcases preferLater_eq_some_iff.mp h with ⟨hrest, -⟩ | ⟨ha, -⟩
    · exact ⟨List.mem_cons_of_mem a (ih hrest).1, (ih hrest).2⟩
    · split at ha
      · rename_i hp
        obtain rfl := Option.some.inj ha
        exact ⟨List.mem_cons_self .., hp⟩
      · cases ha

/-- The element that counts, by what stands before and behind it. -/
theorem latest_eq_some_iff {xs : List α} {x : α} :
    latest p key xs = some x ↔ ∃ before after, xs = before ++ x :: after ∧ p x = true ∧
      (∀ y ∈ before, p y = true → key y ≤ key x) ∧ (∀ y ∈ after, p y = true → key y < key x) := by
  constructor
  · intro h
    induction xs with
    | nil => simp [latest] at h
    | cons a rest ih =>
      rcases preferLater_eq_some_iff.mp h with ⟨hrest, ha⟩ | ⟨ha, hrest⟩
      · obtain ⟨before, after, rfl, hp, hbefore, hafter⟩ := ih hrest
        refine ⟨a :: before, after, rfl, hp, ?_, hafter⟩
        intro y hy hpy
        rcases List.mem_cons.mp hy with rfl | hy
        · exact ha y (by simp [hpy])
        · exact hbefore y hy hpy
      · split at ha
        · rename_i hp
          obtain rfl := Option.some.inj ha
          refine ⟨[], rest, rfl, hp, by simp, ?_⟩
          intro y hy hpy
          obtain ⟨z, hz, hle⟩ : ∃ z ∈ latest p key rest, key y ≤ key z := exists_latest hy hpy
          exact Nat.lt_of_le_of_lt hle (hrest z hz)
        · cases ha
  · rintro ⟨before, after, rfl, hp, hbefore, hafter⟩
    rw [latest_append, latest, if_pos hp]
    refine preferLater_eq_some_iff.mpr (Or.inl ⟨preferLater_eq_some_iff.mpr (Or.inr ⟨rfl, ?_⟩), ?_⟩)
    · intro z hz
      exact hafter z (mem_of_latest hz).1 (mem_of_latest hz).2
    · intro z hz
      exact hbefore z (mem_of_latest hz).1 (mem_of_latest hz).2

/-- No element that applies is greater than the one that counts. -/
theorem key_le_of_latest {xs : List α} {x y : α} (h : latest p key xs = some x) (hy : y ∈ xs)
    (hp : p y = true) : key y ≤ key x := by
  obtain ⟨z, hz, hle⟩ : ∃ z ∈ latest p key xs, key y ≤ key z := exists_latest hy hp
  rw [h, Option.mem_some_iff] at hz
  rwa [hz]

/-- If nothing in the second part is smaller than anything in the first, the second part counts
where it can. -/
theorem latest_append_of_le {xs ys : List α}
    (h : ∀ x ∈ xs, ∀ y ∈ ys, p x = true → p y = true → key x ≤ key y) :
    latest p key (xs ++ ys) = (latest p key ys).or (latest p key xs) := by
  rw [latest_append]
  cases hy : latest p key ys with
  | none => simp
  | some y =>
    refine preferLater_eq_some_iff.mpr (Or.inl ⟨rfl, ?_⟩)
    intro x hx
    exact h x (mem_of_latest hx).1 y (mem_of_latest hy).1 (mem_of_latest hx).2 (mem_of_latest hy).2

/-- An element that a later one outdoes wherever it applies does not count. -/
theorem latest_cons_of_outdone {x : α} {xs : List α}
    (h : p x = true → ∃ y ∈ xs, p y = true ∧ key x ≤ key y) :
    latest p key (x :: xs) = latest p key xs := by
  rw [latest]
  cases hx : p x with
  | false => simp
  | true =>
    obtain ⟨y, hy, hpy, hxy⟩ := h hx
    obtain ⟨z, hz, hyz⟩ : ∃ z ∈ latest p key xs, key y ≤ key z := exists_latest hy hpy
    rw [Option.mem_def.mp hz]
    exact preferLater_eq_some_iff.mpr (Or.inl ⟨rfl, by simp; omega⟩)

/-- In the image of a list the image of the latest counts. -/
theorem latest_map (f : β → α) (xs : List β) :
    latest p key (xs.map f) = (latest (fun x => p (f x)) (fun x => key (f x)) xs).map f := by
  induction xs with
  | nil => rfl
  | cons x rest ih =>
    rw [List.map_cons, latest, ih, latest]
    cases hp : p (f x) with
    | false => simp
    | true =>
      cases latest (fun x => p (f x)) (fun x => key (f x)) rest with
      | none => simp
      | some y =>
        simp only [if_true, Option.map_some, preferLater]
        split <;> rfl

/-- Only the order of the keys of those that apply matters. -/
theorem latest_congr {q : α → Bool} {key' : α → Nat} {xs : List α} (hp : ∀ x ∈ xs, p x = q x)
    (hkey : ∀ x ∈ xs, ∀ y ∈ xs, p x = true → p y = true → (key x < key y ↔ key' x < key' y)) :
    latest p key xs = latest q key' xs := by
  induction xs with
  | nil => rfl
  | cons x rest ih =>
    have hrest := ih (fun y hy => hp y (List.mem_cons_of_mem x hy))
      fun y hy z hz => hkey y (List.mem_cons_of_mem x hy) z (List.mem_cons_of_mem x hz)
    rw [latest, latest, ← hrest, ← hp x (List.mem_cons_self ..)]
    cases hx : p x with
    | false => simp
    | true =>
      cases hy : latest p key rest with
      | none => simp
      | some y =>
        obtain ⟨hmem, hpy⟩ := mem_of_latest hy
        have h := hkey y (List.mem_cons_of_mem x hmem) x (List.mem_cons_self ..) hpy hx
        simp only [if_true, preferLater, h]

/-- Of the elements that are left of a list, those count that apply in it. -/
theorem latest_filter (q : α → Bool) (xs : List α) :
    latest p key (xs.filter q) = latest (fun x => q x && p x) key xs := by
  induction xs with
  | nil => rfl
  | cons x rest ih =>
    cases hq : q x with
    | false => simp [latest, hq, ih]
    | true => simp [latest, hq, ih]

/-- In lists that correspond the elements that count do. -/
theorem latest_of_forall₂ {R : α → β → Prop} {q : β → Bool} {key' : β → Nat} {xs : List α}
    {ys : List β} (h : List.Forall₂ R xs ys)
    (hR : ∀ x y, R x y → p x = q y ∧ key x = key' y) :
    Option.Rel R (latest p key xs) (latest q key' ys) := by
  induction h with
  | nil => exact .none
  | @cons x y xs ys hxy _ ih =>
    obtain ⟨hp, hkey⟩ := hR x y hxy
    rw [latest, latest, hp]
    generalize latest p key xs = a at ih
    generalize latest q key' ys = b at ih
    cases hq : q y with
    | false => simpa using ih
    | true =>
      cases ih with
      | none => simpa using Option.Rel.some hxy
      | some hab =>
        simp only [if_true, preferLater, (hR _ _ hab).2, hkey]
        split
        · exact .some hxy
        · exact .some hab

/-- Of elements in the order of their keys the last one counts. -/
theorem latest_eq_getLast? {xs : List α} (h : (xs.filter p).Pairwise fun x y => key x ≤ key y) :
    latest p key xs = (xs.filter p).getLast? := by
  induction xs with
  | nil => rfl
  | cons x rest ih =>
    rw [latest]
    cases hx : p x with
    | false =>
      rw [List.filter_cons_of_neg (by simp [hx])] at h ⊢
      simpa using ih h
    | true =>
      rw [List.filter_cons_of_pos hx] at h ⊢
      obtain ⟨hle, hrest⟩ := List.pairwise_cons.mp h
      rw [ih hrest, List.getLast?_cons]
      cases hl : (rest.filter p).getLast? with
      | none => simp
      | some y =>
        have hxy := hle y (List.mem_of_getLast? hl)
        simp [preferLater, Nat.not_lt.mpr hxy]

/-- Of the elements that apply and have the key of the latest, the latest is the last. -/
theorem getLast?_filter_of_latest {xs : List α} {x : α} (h : latest p key xs = some x) :
    (xs.filter fun y => p y && key y == key x).getLast? = some x := by
  obtain ⟨before, after, rfl, hp, -, hafter⟩ := latest_eq_some_iff.mp h
  have hnone : (after.filter fun y => p y && key y == key x) = [] := by
    rw [List.filter_eq_nil_iff]
    intro y hy hpy
    rw [Bool.and_eq_true, beq_iff_eq] at hpy
    have := hafter y hy hpy.1
    omega
  simp [List.filter_append, hp, hnone]

/-- Elements may be moved as long as those that apply and have one key keep their order. -/
theorem latest_of_perm {xs ys : List α} (hperm : ys.Perm xs)
    (horder : ∀ k, (ys.filter fun y => p y && key y == k) = xs.filter fun y => p y && key y == k) :
    latest p key ys = latest p key xs := by
  cases hx : latest p key xs with
  | none =>
    apply latest_eq_none
    intro y hy
    by_contra hp
    obtain ⟨z, hz, -⟩ : ∃ z ∈ latest p key xs, key y ≤ key z :=
      exists_latest (hperm.mem_iff.mp hy) (by simpa using hp)
    rw [hx] at hz
    cases hz
  | some x =>
    obtain ⟨hmem, hp⟩ := mem_of_latest hx
    -- both lists have a greatest key, which is the same, and the last element with it
    obtain ⟨y, hy, -⟩ : ∃ y ∈ latest p key ys, key x ≤ key y :=
      exists_latest (hperm.mem_iff.mpr hmem) hp
    have hxy := key_le_of_latest hy (hperm.mem_iff.mpr hmem) hp
    have hyx := key_le_of_latest hx (hperm.mem_iff.mp (mem_of_latest hy).1) (mem_of_latest hy).2
    have hy' := getLast?_filter_of_latest hy
    rw [Nat.le_antisymm hyx hxy, horder, getLast?_filter_of_latest hx] at hy'
    exact hy.trans hy'.symm

end Provenance
