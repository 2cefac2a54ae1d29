/-
# Association lists

A list of keys and values in the order in which the keys were first written.  Keys are looked up
with `List.lookup`.

The main facts:

* `lookup_insert_self`, `lookup_insert_of_ne` : an insertion is seen under its key and nowhere else;
* `keys_insert` : a key that is present keeps its place, a new one goes to the end.
-/

namespace Provenance.Assoc

variable {α β : Type} [DecidableEq α]

/-- The value stored under a key replaced in its place, or a new key at the end. -/
def insert (key : α) (value : β) : List (α × β) → List (α × β)
  | [] => [(key, value)]
  | (k, v) :: rest => if k = key then (key, value) :: rest else (k, v) :: insert key value rest

/-- The keys in order. -/
def keys (entries : List (α × β)) : List α := entries.map Prod.fst

/-- An insertion is seen under its key. -/
@[simp] theorem lookup_insert_self (key : α) (value : β) (entries : List (α × β)) :
    (insert key value entries).lookup key = some value := by
  induction entries with
  | nil => simp [insert]
  | cons entry rest ih =>
    obtain ⟨k, v⟩ := entry
    unfold insert
    split
    · simp
    · rename_i h
      simp [List.lookup_cons, ih, beq_eq_false_iff_ne.mpr (Ne.symm h)]

/-- An insertion is seen under no other key. -/
theorem lookup_insert_of_ne {key other : α} (h : other ≠ key) (value : β)
    (entries : List (α × β)) : (insert key value entries).lookup other = entries.lookup other := by
  induction entries with
  | nil => simp [insert, List.lookup_cons, beq_eq_false_iff_ne.mpr h]
  | cons entry rest ih =>
    obtain ⟨k, v⟩ := entry
    unfold insert
    split
    · rename_i hk
      subst hk
      simp [List.lookup_cons, beq_eq_false_iff_ne.mpr h]
    · simp [List.lookup_cons, ih]

/-- A key that is present keeps its place, a new one goes to the end. -/
theorem keys_insert (key : α) (value : β) (entries : List (α × β)) :
    keys (insert key value entries) =
      if key ∈ keys entries then keys entries else keys entries ++ [key] := by
  induction entries with
  | nil => simp [insert, keys]
  | cons entry rest ih =>
    obtain ⟨k, v⟩ := entry
    simp only [keys] at ih ⊢
    unfold insert
    split
    · rename_i hk
      simp [hk]
    · rename_i hk
      by_cases hm : key ∈ rest.map Prod.fst
      · simp [ih, hm]
      · simp [ih, hm, Ne.symm hk]

/-- A new key goes to the end with its value. -/
theorem insert_of_not_mem {key : α} {entries : List (α × β)} (h : key ∉ keys entries) (value : β) :
    insert key value entries = entries ++ [(key, value)] := by
  induction entries with
  | nil => rfl
  | cons entry rest ih =>
    rw [keys, List.map_cons, List.mem_cons, not_or] at h
    rw [insert, if_neg (Ne.symm h.1), ih h.2]
    rfl

end Provenance.Assoc
