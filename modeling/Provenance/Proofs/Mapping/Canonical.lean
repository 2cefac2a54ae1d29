/-
# Tables with one normal form

A normal form keeps of a table just what places are mapped to: an entry with an origin where it is the
one that its own place falls to, and an entry without one where a mapped range ends.  Two tables whose
places fall to the same entries with origins therefore have the same normal form.

The main facts:

* `mappedBy?_normalForm` : a place falls to the same entry with an origin in a table and in its normal
  form;
* `mem_iff_of_closed` : the entries of an increasing closed table, by what its places fall to;
* `normalForm_eq_of_mappedBy?` : tables whose places fall to the same entries with origins have the same
  normal form.
-/
import Mathlib.Data.List.Sort
import Provenance.Proofs.Mapping.Stable

namespace Provenance

/-- Placed entries are told apart by their places and origins. -/
theorem Mapping.eq_of_place {a b : Mapping} (ha : a.Placed) (hb : b.Placed) (hplace : a.place = b.place)
    (horigin : a.origin = b.origin) : a = b := by
  have hline : a.line = b.line := by rw [ha.line, hb.line, hplace]
  have hcolumn : a.column = b.column := by rw [ha.column, hb.column, hplace]
  cases a
  cases b
  exact Mapping.mk.injEq .. ▸ ⟨hline, hcolumn, horigin⟩

namespace MappingTable

open Text (Position)

variable {table other : MappingTable} {m b : Mapping} {p : Position}

/-! ## Entries that places fall to -/

/-- The entry that covers a place, if it has an origin. -/
def mappedBy? (table : MappingTable) (p : Position) : Option Mapping :=
  (table.cover? p).filter fun m => m.origin.isSome

theorem mappedBy?_eq_some_iff :
    table.mappedBy? p = some m ↔ table.cover? p = some m ∧ m.origin.isSome :=
  Option.filter_eq_some_iff

/-- A place comes from somewhere if it falls to an entry with an origin. -/
theorem isSome_origin? (table : MappingTable) (p : Position) :
    (table.origin? p).isSome = (table.mappedBy? p).isSome := by
  unfold origin? mappedBy?
  cases table.cover? p with
  | none => rfl
  | some m => cases horigin : m.origin <;> simp [horigin]

theorem origin?_eq_none_iff : table.origin? p = none ↔ table.mappedBy? p = none := by
  rw [← Option.not_isSome_iff_eq_none, isSome_origin?, Option.not_isSome_iff_eq_none]

/-- The entry that a place falls to stands at or before it on its line. -/
theorem covers_of_mappedBy? (h : table.mappedBy? p = some m) :
    m ∈ table ∧ m.place.line = p.line ∧ m.place.column ≤ p.column := by
  obtain ⟨hmem, hcovers⟩ := mem_of_latest (mappedBy?_eq_some_iff.mp h).1
  exact ⟨hmem, Position.covers_iff.mp hcovers⟩

/-! ## Increasing tables -/

/-- In an increasing table there is one entry at a place at most. -/
theorem Increasing.eq_of_place (hp : table.Placed) (hi : table.Increasing) (hb : b ∈ table)
    (hm : m ∈ table) (h : b.place = m.place) : b = m := by
  by_contra hne
  have hapart : ∀ a c : Mapping, a ∈ table → c ∈ table → a.place = c.place → ¬ a.precedes c = true := by
    intro a c ha hc hac
    rw [Mapping.precedes_iff (hp a ha) (hp c hc), hac]
    omega
  have hpair := List.Pairwise.forall_of_forall_of_flip (R := fun a c => a = c ∨ a.precedes c = true ∨
    c.precedes a = true) (l := table) (fun a _ => Or.inl rfl)
    (hi.imp fun h => Or.inr (Or.inl h)) (hi.imp fun h => Or.inr (Or.inr h))
  rcases hpair hb hm with heq | hlt | hlt
  · exact hne heq
  · exact hapart b m hb hm h hlt
  · exact hapart m b hm hb h.symm hlt

/-- In an increasing table the entry that covers a place is the one with the greatest column. -/
theorem Increasing.cover?_eq_some_iff (hp : table.Placed) (hi : table.Increasing) :
    table.cover? p = some m ↔ m ∈ table ∧ m.place.covers p = true ∧
      ∀ b ∈ table, b.place.covers p = true → b.place.column ≤ m.place.column := by
  constructor
  · intro h
    refine ⟨(mem_of_latest h).1, (mem_of_latest h).2, fun b hb hc => ?_⟩
    have hle := key_le_of_latest h hb hc
    exact hle
  · rintro ⟨hm, hc, hgreatest⟩
    obtain ⟨z, hz, hle⟩ : ∃ z ∈ table.cover? p, m.place.column ≤ z.place.column :=
      exists_latest hm hc
    obtain ⟨hmem, hcz⟩ := mem_of_latest hz
    have hge := hgreatest z hmem hcz
    have hplace : z.place = m.place := by
      rw [Position.covers_iff] at hc hcz
      rw [Position.ext_iff']
      omega
    rw [Option.mem_def.mp hz, hi.eq_of_place hp hmem hm hplace]

/-- In an increasing table the place of an entry falls to it. -/
theorem Increasing.cover?_place (hp : table.Placed) (hi : table.Increasing) (hm : m ∈ table) :
    table.cover? m.place = some m := by
  refine (hi.cover?_eq_some_iff hp).mpr ⟨hm, Position.covers_iff.mpr ⟨rfl, Nat.le_refl _⟩, ?_⟩
  exact fun b _ hc => (Position.covers_iff.mp hc).2

/-! ## The normal form -/

/-- Entries with origins have an effect. -/
theorem mem_dropIdle_of_isSome {before : Option Mapping} (hm : m ∈ table) (ho : m.origin.isSome) :
    m ∈ dropIdle before table := by
  induction table generalizing before with
  | nil => cases hm
  | cons a rest ih =>
    rw [dropIdle]
    rcases List.mem_cons.mp hm with rfl | hm
    · rw [if_pos (isEffective_iff.mpr (Or.inl ho))]
      exact List.mem_cons_self
    · split
      · exact List.mem_cons_of_mem _ (ih hm)
      · exact ih hm

theorem mappedBy?_dropIdle (hp : table.Placed) (hi : table.Increasing) (p : Position) :
    (dropIdle none table).mappedBy? p = table.mappedBy? p := by
  have hsub := dropIdle_sublist none table
  cases h : table.mappedBy? p with
  | none => exact origin?_eq_none_iff.mp ((origin?_dropIdle hp hi p).trans (origin?_eq_none_iff.mpr h))
  | some m =>
    -- the entry is kept, and nothing that is kept has a greater column
    obtain ⟨hcover, ho⟩ := mappedBy?_eq_some_iff.mp h
    obtain ⟨hm, hc, hgreatest⟩ := (hi.cover?_eq_some_iff hp).mp hcover
    have hp' : (dropIdle none table).Placed := fun a ha => hp a (hsub.subset ha)
    have hi' : (dropIdle none table).Increasing := hi.sublist hsub
    exact mappedBy?_eq_some_iff.mpr ⟨(hi'.cover?_eq_some_iff hp').mpr
      ⟨mem_dropIdle_of_isSome hm ho, hc, fun b hb => hgreatest b (hsub.subset hb)⟩, ho⟩

/-- **A place falls to the same entry with an origin in a table and in its normal form.** -/
theorem mappedBy?_normalForm (hp : table.Placed) (p : Position) :
    table.normalForm.mappedBy? p = table.mappedBy? p := by
  have hp' : (sort table).Placed := fun m hm => hp m ((sort_perm table).mem_iff.mp hm)
  have hkept : (keepLast (sort table)).Placed := fun m hm => hp' m ((keepLast_sublist _).subset hm)
  unfold normalForm
  rw [mappedBy?_dropIdle hkept (keepLast_increasing hp' (sort_sorted hp)), mappedBy?, mappedBy?,
    cover?_keepLast hp', cover?_sort hp]

/-! ## Entries by what places fall to -/

/-- A range ends at a place: the place comes from nowhere, and the one before it on the line does
not. -/
def EndsAt (table : MappingTable) (p : Position) : Prop :=
  table.mappedBy? p = none ∧ ∃ column, p.column = column + 1 ∧
    (table.mappedBy? ⟨p.line, column⟩).isSome

/-- An entry without an origin stands where a range ends. -/
theorem Closed.endsAt (hp : table.Placed) (hi : table.Increasing) (hc : table.Closed)
    (hm : m ∈ table) (ho : m.origin = none) : table.EndsAt m.place := by
  have hcover := hi.cover?_place hp hm
  obtain ⟨before, after, rfl⟩ := List.append_of_mem hm
  obtain ⟨b, hb, hline, hsome⟩ := hc before m after rfl ho
  have hbmem := List.mem_of_getLast? hb
  obtain ⟨first, rfl⟩ := List.getLast?_eq_some_iff.mp hb
  have hbplace : b.place.line = m.place.line := by rw [Mapping.place, Mapping.place, hline]
  obtain ⟨hfirst, hafter, hprecedes⟩ := List.pairwise_append.mp hi
  have hbm := hprecedes b (by simp) m List.mem_cons_self
  rw [Mapping.precedes_iff (hp b (by simp)) (hp m hm)] at hbm
  refine ⟨by rw [mappedBy?, hcover, Option.filter_some, if_neg (by simp [ho])],
    m.place.column - 1, by omega, ?_⟩
  -- the entry before covers the place just before, and nothing stands in between
  have hlast : MappingTable.cover? (first ++ [b] ++ m :: after) ⟨m.place.line, m.place.column - 1⟩ =
      some b := by
    refine (hi.cover?_eq_some_iff hp).mpr ⟨by simp, Position.covers_iff.mpr ⟨hbplace, ?_⟩, ?_⟩
    · show b.place.column ≤ m.place.column - 1
      omega
    · intro a ha hcovers
      obtain ⟨haline, hacolumn⟩ := Position.covers_iff.mp hcovers
      simp only at haline hacolumn
      simp only [List.append_assoc, List.mem_append, List.mem_cons, List.not_mem_nil, or_false] at ha
      rcases ha with ha | rfl | rfl | ha
      · have hab := (List.pairwise_append.mp hfirst).2.2 a ha b List.mem_cons_self
        rw [Mapping.precedes_iff (hp a (by simp [ha])) (hp b (by simp))] at hab
        omega
      · exact Nat.le_refl _
      · omega
      · have hma := (List.pairwise_cons.mp hafter).1 a ha
        rw [Mapping.precedes_iff (hp m hm) (hp a (by simp [ha]))] at hma
        omega
  rw [mappedBy?, hlast, Option.filter_some, if_pos hsome]
  rfl

/-- **The entries of an increasing closed table, by what its places fall to.**  An entry with an origin
is the one that its place falls to; one without stands where a range ends. -/
theorem mem_iff_of_closed (hp : table.Placed) (hi : table.Increasing) (hc : table.Closed)
    (hm : m.Placed) : m ∈ table ↔
      if m.origin.isSome then table.mappedBy? m.place = some m else table.EndsAt m.place := by
  split
  · rename_i ho
    refine ⟨fun hmem => mappedBy?_eq_some_iff.mpr ⟨hi.cover?_place hp hmem, ho⟩, fun h => ?_⟩
    exact (covers_of_mappedBy? h).1
  · rename_i ho
    rw [Option.not_isSome_iff_eq_none] at ho
    refine ⟨fun hmem => hc.endsAt hp hi hmem ho, ?_⟩
    rintro ⟨hnone, column, hcolumn, hsome⟩
    obtain ⟨b, hb⟩ := Option.isSome_iff_exists.mp hsome
    obtain ⟨hbmem, hbline, hbcolumn⟩ := covers_of_mappedBy? hb
    obtain ⟨hbcover, hbo⟩ := mappedBy?_eq_some_iff.mp hb
    simp only at hbline hbcolumn
    -- the place is covered, since the entry before covers it, and so by an entry without an origin
    obtain ⟨x, hx, hle⟩ : ∃ x ∈ table.cover? m.place, b.place.column ≤ x.place.column :=
      exists_latest hbmem (Position.covers_iff.mpr ⟨hbline, by omega⟩)
    obtain ⟨hxmem, hxcovers⟩ := mem_of_latest hx
    obtain ⟨hxline, hxcolumn⟩ := Position.covers_iff.mp hxcovers
    have hxo : x.origin = none := by
      rw [mappedBy?, Option.mem_def.mp hx, Option.filter_some] at hnone
      simpa using hnone
    -- it does not cover the place just before, so it stands at the place
    have hxplace : x.place = m.place := by
      by_contra hne
      rw [Position.ext_iff'] at hne
      have hcovers : x.place.covers ⟨m.place.line, column⟩ = true :=
        Position.covers_iff.mpr ⟨hxline, show x.place.column ≤ column by omega⟩
      have hge := ((hi.cover?_eq_some_iff hp).mp hbcover).2.2 x hxmem hcovers
      have heq : x = b := hi.eq_of_place hp hxmem hbmem (by rw [Position.ext_iff']; omega)
      rw [heq] at hxo
      simp [hxo] at hbo
    rwa [← Mapping.eq_of_place (hp x hxmem) hm hxplace (hxo.trans ho.symm)]

/-- Increasing closed tables are equal if their places fall to the same entries with origins, up to the
entries on each line. -/
theorem eq_of_mappedBy? (hp : table.Placed) (hi : table.Increasing) (hc : table.Closed)
    (hp' : other.Placed) (hi' : other.Increasing) (hc' : other.Closed)
    (h : ∀ m, m ∈ table ∨ m ∈ other → ∀ column ≤ m.place.column,
      table.mappedBy? ⟨m.place.line, column⟩ = other.mappedBy? ⟨m.place.line, column⟩) :
    table = other := by
  have hends : ∀ m, m ∈ table ∨ m ∈ other → (table.EndsAt m.place ↔ other.EndsAt m.place) := by
    intro m hm
    unfold EndsAt
    rw [show table.mappedBy? m.place = _ from h m hm _ (Nat.le_refl _)]
    refine and_congr_right fun _ => exists_congr fun column => and_congr_right fun hcolumn => ?_
    rw [h m hm column (by omega)]
  -- the order of increasing tables is strict
  have hpairwise : ∀ {t : MappingTable}, t.Placed → t.Increasing →
      t.Pairwise fun a b => a.place.line < b.place.line ∨
        (a.place.line = b.place.line ∧ a.place.column < b.place.column) := by
    intro t ht hincreasing
    exact hincreasing.imp_of_mem fun ha hb hab => (Mapping.precedes_iff (ht _ ha) (ht _ hb)).mp hab
  refine @List.Pairwise.eq_of_mem_iff _ _ ⟨fun a b _ _ => ?_⟩ ⟨fun a => ?_⟩ _ _ (hpairwise hp hi)
    (hpairwise hp' hi') fun m => ?_
  · omega
  · omega
  · constructor
    · intro hm
      have hmem := (mem_iff_of_closed hp hi hc (hp m hm)).mp hm
      rw [h m (Or.inl hm) _ (Nat.le_refl _), hends m (Or.inl hm)] at hmem
      exact (mem_iff_of_closed hp' hi' hc' (hp m hm)).mpr hmem
    · intro hm
      have hmem := (mem_iff_of_closed hp' hi' hc' (hp' m hm)).mp hm
      rw [← h m (Or.inr hm) _ (Nat.le_refl _), ← hends m (Or.inr hm)] at hmem
      exact (mem_iff_of_closed hp hi hc (hp' m hm)).mpr hmem

/-- **Tables whose places fall to the same entries with origins have the same normal form.**  Only places
up to the entries on each line count. -/
theorem normalForm_eq_of_mappedBy? (hp : table.Placed) (hp' : other.Placed)
    (h : ∀ m, m ∈ table ∨ m ∈ other → ∀ column ≤ m.place.column,
      table.mappedBy? ⟨m.place.line, column⟩ = other.mappedBy? ⟨m.place.line, column⟩) :
    table.normalForm = other.normalForm := by
  refine eq_of_mappedBy? (normalForm_placed hp) (normalForm_increasing hp) (normalForm_closed _)
    (normalForm_placed hp') (normalForm_increasing hp') (normalForm_closed _) fun m hm column hle => ?_
  rw [mappedBy?_normalForm hp, mappedBy?_normalForm hp']
  exact h m (hm.imp normalForm_subset normalForm_subset) column hle

end MappingTable

end Provenance
