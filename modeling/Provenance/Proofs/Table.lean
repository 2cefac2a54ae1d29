/-
# Laws of string tables

A table only grows: adding texts leaves every index with the text that it had.  The index that is
given for a text has that text.  Adding texts again, from a table in which they stand already without
repetitions, gives the same table.

The main facts:

* `get?_of_extends` : a larger table has the same texts at the indices of a smaller one;
* `get?_intern`, `forall₂_internAll` : the indices given for texts have these texts;
* `nodup_internAll` : a table without repetitions stays one;
* `internAll_of_nodup` : texts that differ are numbered in their order;
* `internAll_internAll` : texts may be gathered in a table of their own first.
-/
import Mathlib.Data.List.Forall2
import Mathlib.Data.List.Induction
import Provenance.Table.Basic

namespace Provenance

namespace TextTable

/-- The texts of a table come first in a larger one. -/
def Extends (larger smaller : TextTable) : Prop := smaller.texts <+: larger.texts

theorem Extends.refl (t : TextTable) : t.Extends t := List.prefix_refl _

theorem Extends.trans {a b c : TextTable} (hab : a.Extends b) (hbc : b.Extends c) : a.Extends c :=
  List.IsPrefix.trans hbc hab

@[simp] theorem get?_natCast (t : TextTable) (i : Nat) : t.get? (i : Number) = t.texts[i]? := by
  simp [get?]

/-- A larger table has the same texts at the indices of a smaller one. -/
theorem get?_of_extends {larger smaller : TextTable} (h : larger.Extends smaller) {index : Number}
    {s : Text} (hs : smaller.get? index = some s) : larger.get? index = some s := by
  unfold get? at hs ⊢
  cases hi : index.toNat? with
  | none => simp [hi] at hs
  | some i =>
    rw [hi, Option.bind_some] at hs
    obtain ⟨rest, hrest⟩ := h
    obtain ⟨hlt, -⟩ := List.getElem?_eq_some_iff.mp hs
    rw [Option.bind_some, ← hrest, List.getElem?_append_left hlt, hs]

/-- An index has a text if looking it up succeeds. -/
theorem get_eq_ok_iff {t : TextTable} {index : Number} {s : Text} :
    t.get index = .ok s ↔ t.get? index = some s := by
  unfold get
  cases t.get? index <;> simp

/-! ## Adding texts -/

theorem extends_intern (t : TextTable) (s : Text) : (t.intern s).2.Extends t := by
  unfold Extends
  rw [texts_intern]
  split
  · exact List.prefix_refl _
  · exact List.prefix_append _ _

/-- The index that is given for a text has that text. -/
theorem get?_intern (t : TextTable) (s : Text) :
    (t.intern s).2.get? ((t.intern s).1 : Number) = some s := by
  rw [get?_natCast]
  unfold intern indexOf?
  cases h : t.texts.idxOf? s with
  | none => simp [size]
  | some i =>
    obtain ⟨hlt, heq⟩ := List.idxOf?_eq_some_iff.mp h
    exact List.getElem?_eq_some_iff.mpr ⟨hlt, heq.1⟩

theorem extends_internAll (t : TextTable) (ss : List Text) : (t.internAll ss).2.Extends t := by
  induction ss generalizing t with
  | nil => exact .refl t
  | cons s rest ih => exact (ih _).trans (t.extends_intern s)

/-- The indices that are given for texts have these texts. -/
theorem forall₂_internAll (t : TextTable) (ss : List Text) :
    List.Forall₂ (fun s (i : Nat) => (t.internAll ss).2.get? (i : Number) = some s) ss
      (t.internAll ss).1 := by
  induction ss generalizing t with
  | nil => exact .nil
  | cons s rest ih =>
    exact .cons (get?_of_extends (extends_internAll (t.intern s).2 rest) (t.get?_intern s)) (ih _)

/-! ## Tables without repetitions -/

theorem nodup_intern {t : TextTable} (h : t.texts.Nodup) (s : Text) : (t.intern s).2.texts.Nodup := by
  rw [texts_intern]
  split
  · exact h
  · rename_i hs
    refine List.nodup_append.mpr ⟨h, List.pairwise_singleton _ s, fun a ha b hb => ?_⟩
    rw [List.mem_singleton.mp hb]
    rintro rfl
    exact hs ha

theorem nodup_internAll {t : TextTable} (h : t.texts.Nodup) (ss : List Text) :
    (t.internAll ss).2.texts.Nodup := by
  induction ss generalizing t with
  | nil => exact h
  | cons s rest ih => exact ih (nodup_intern h s)

/-- In a table without repetitions a text stands at one index only. -/
theorem eq_of_get? {t : TextTable} (h : t.texts.Nodup) {i j : Number} {s : Text}
    (hi : t.get? i = some s) (hj : t.get? j = some s) : i = j := by
  obtain ⟨a, ha, has⟩ := Option.bind_eq_some_iff.mp hi
  obtain ⟨b, hb, hbs⟩ := Option.bind_eq_some_iff.mp hj
  obtain ⟨hlt, -⟩ := List.getElem?_eq_some_iff.mp has
  obtain rfl := (List.getElem?_inj hlt h).mp (has.trans hbs.symm)
  rw [Number.eq_natCast_of_toNat? ha, Number.eq_natCast_of_toNat? hb]

theorem intern_of_not_mem {t : TextTable} {s : Text} (h : s ∉ t.texts) :
    t.intern s = (t.size, ⟨t.texts ++ [s]⟩) := by
  rw [intern, indexOf?, List.idxOf?_eq_none_iff.mpr h]

/-- **Texts that differ are numbered in their order.** -/
theorem internAll_of_nodup {t : TextTable} {ss : List Text} (h : (t.texts ++ ss).Nodup) :
    t.internAll ss = (List.range' t.size ss.length, ⟨t.texts ++ ss⟩) := by
  induction ss generalizing t with
  | nil => simp [internAll]
  | cons s rest ih =>
    have hs : s ∉ t.texts := fun hmem =>
      (List.nodup_append.mp h).2.2 s hmem s List.mem_cons_self rfl
    have ih := ih (t := ⟨t.texts ++ [s]⟩) (by simpa using h)
    simp only [size, List.length_append, List.length_singleton, List.append_assoc,
      List.singleton_append] at ih
    rw [internAll, intern_of_not_mem hs]
    simp only [ih, size, List.length_cons, List.range'_succ]

/-! ## Texts gathered in a table of their own -/

theorem internAll_append (t : TextTable) (ss rest : List Text) :
    (t.internAll (ss ++ rest)).2 = ((t.internAll ss).2.internAll rest).2 := by
  induction ss generalizing t with
  | nil => rfl
  | cons s _ ih => exact ih _

theorem mem_intern {t : TextTable} {s x : Text} : x ∈ (t.intern s).2.texts ↔ x ∈ t.texts ∨ x = s := by
  rw [texts_intern]
  split
  · rename_i hs
    refine ⟨Or.inl, fun h => h.elim id ?_⟩
    rintro rfl
    exact hs
  · simp

theorem mem_internAll {t : TextTable} {ss : List Text} {x : Text} :
    x ∈ (t.internAll ss).2.texts ↔ x ∈ t.texts ∨ x ∈ ss := by
  induction ss generalizing t with
  | nil => simp [internAll]
  | cons s rest ih =>
    rw [show (t.internAll (s :: rest)).2 = ((t.intern s).2.internAll rest).2 from rfl, ih, mem_intern,
      List.mem_cons, or_assoc]

/-- Adding a known text changes nothing. -/
theorem intern_of_mem {t : TextTable} {s : Text} (h : s ∈ t.texts) : (t.intern s).2 = t :=
  TextTable.mk.injEq .. ▸ ((t.texts_intern s).trans (if_pos h))

/-- **Texts may be gathered in a table of their own first.** -/
theorem internAll_internAll (t : TextTable) (ss : List Text) :
    (t.internAll (TextTable.internAll {} ss).2.texts).2 = (t.internAll ss).2 := by
  induction ss using List.reverseRecOn with
  | nil => rfl
  | append_singleton ss s ih =>
    rw [internAll_append, internAll_append,
      show (TextTable.internAll _ [s]).2 = (TextTable.intern (TextTable.internAll {} ss).2 s).2 from rfl,
      show (TextTable.internAll _ [s]).2 = (TextTable.intern (t.internAll ss).2 s).2 from rfl]
    by_cases hs : s ∈ (TextTable.internAll {} ss).2.texts
    · -- a text that is known there is known in the table
      have hmem : s ∈ (t.internAll ss).2.texts := by
        rw [mem_internAll] at hs ⊢
        exact Or.inr (hs.resolve_left List.not_mem_nil)
      rw [intern_of_mem hs, intern_of_mem hmem, ih]
    · rw [texts_intern, if_neg hs, internAll_append, ih]
      rfl

end TextTable

namespace ContentTable

/-- A source table and its table of names give the same indices. -/
theorem names_internAll (t : ContentTable) (entries : List (Text × Option Text)) :
    (t.internAll entries).2.names = (t.names.internAll (entries.map Prod.fst)).2 ∧
      (t.internAll entries).1 = (t.names.internAll (entries.map Prod.fst)).1 := by
  induction entries generalizing t with
  | nil => exact ⟨rfl, rfl⟩
  | cons e rest ih =>
    obtain ⟨s, content⟩ := e
    obtain ⟨hnames, hindex⟩ := t.names_intern s content
    obtain ⟨htail, hindices⟩ := ih (t.intern s content).2
    simp only [internAll, TextTable.internAll, List.map_cons]
    rw [hnames] at htail hindices
    exact ⟨htail, by rw [hindices, hindex]⟩

theorem extends_intern (t : ContentTable) (s : Text) (content : Option Text) :
    (t.intern s content).2.names.Extends t.names := by
  rw [(t.names_intern s content).1]
  exact t.names.extends_intern s

/-- The index that is given for a source has that source. -/
theorem get?_intern (t : ContentTable) (s : Text) (content : Option Text) :
    (t.intern s content).2.names.get? ((t.intern s content).1 : Number) = some s := by
  rw [(t.names_intern s content).1, (t.names_intern s content).2]
  exact t.names.get?_intern s

/-! ### Tables without repetitions -/

theorem nodup_empty : (ContentTable.names {}).texts.Nodup := List.nodup_nil

theorem nodup_intern {t : ContentTable} (h : t.names.texts.Nodup) (s : Text)
    (content : Option Text) : (t.intern s content).2.names.texts.Nodup := by
  rw [(t.names_intern s content).1]
  exact TextTable.nodup_intern h s

theorem nodup_internAll {t : ContentTable} (h : t.names.texts.Nodup)
    (entries : List (Text × Option Text)) : (t.internAll entries).2.names.texts.Nodup := by
  rw [(t.names_internAll entries).1]
  exact TextTable.nodup_internAll h _

theorem intern_of_not_mem {t : ContentTable} {s : Text} (h : s ∉ t.names.texts)
    (content : Option Text) : t.intern s content = (t.entries.length, ⟨t.entries ++ [(s, content)]⟩) := by
  rw [intern, TextTable.indexOf?, List.idxOf?_eq_none_iff.mpr h]

end ContentTable

end Provenance
