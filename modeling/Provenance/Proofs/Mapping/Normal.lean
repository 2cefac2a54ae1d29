/-
# What a normal form maps to

Bringing a table into its normal form drops entries that are covered by later ones at their place, and
entries without an origin that end no range.  Neither changes what a place is mapped to.

The main facts:

* `normalForm_placed`, `normalForm_increasing` : a normal form has one entry at a place at most;
* `trace?_normalForm` : what a place is mapped to is decided by the last entry, in the order of
  insertion, among those with the greatest column at or before it on its line.
-/
import Provenance.Proofs.Mapping.Place

namespace Provenance.MappingTable

open Text (Position)

/-! ## One entry at a place -/

/-- Keeping the last entry at each place does not change which entry covers a place. -/
theorem cover?_keepLast {table : MappingTable} (hp : table.Placed) (p : Position) :
    (keepLast table).cover? p = table.cover? p := by
  induction table with
  | nil => rfl
  | cons a rest ih =>
    cases rest with
    | nil => rfl
    | cons b rest =>
      have hrest := ih fun m hm => hp m (List.mem_cons_of_mem a hm)
      unfold keepLast
      split
      · rename_i hshare
        have hab : a.place = b.place :=
          (Mapping.sharesPosition_iff (hp a (by simp)) (hp b (by simp))).mp hshare
        rw [hrest]
        refine (latest_cons_of_outdone fun ha => ⟨b, List.mem_cons_self .., ?_, ?_⟩).symm
        · rwa [← hab]
        · exact Nat.le_of_eq (by rw [hab])
      · show latest _ _ (a :: keepLast (b :: rest)) = latest _ _ (a :: b :: rest)
        rw [latest, latest]
        exact congrArg _ hrest

theorem keepLast_increasing {table : MappingTable} (hp : table.Placed) (hs : table.Sorted) :
    (keepLast table).Increasing := by
  induction table with
  | nil => exact List.Pairwise.nil
  | cons a rest ih =>
    cases rest with
    | nil => exact List.pairwise_singleton _ a
    | cons b rest =>
      have hrest := ih (fun m hm => hp m (List.mem_cons_of_mem a hm)) (List.pairwise_cons.mp hs).2
      unfold keepLast
      split
      · exact hrest
      · rename_i hshare
        have ha : a.Placed := hp a (by simp)
        have hb : b.Placed := hp b (by simp)
        -- `a` stands at another place than `b`, which everything kept behind it follows or is
        rw [Mapping.sharesPosition_iff ha hb, Position.ext_iff'] at hshare
        refine List.Pairwise.cons (fun m hm => ?_) hrest
        have hm := (keepLast_sublist _).subset hm
        have hab := Position.le_iff.mp (List.rel_of_pairwise_cons hs (List.mem_cons_self ..))
        have hbm : b.place.le m.place = true := by
          rcases List.mem_cons.mp hm with rfl | hm
          · rw [Position.le_iff]
            omega
          · exact List.rel_of_pairwise_cons (List.pairwise_cons.mp hs).2 hm
        have hbm := Position.le_iff.mp hbm
        rw [Mapping.precedes_iff ha (hp m (List.mem_cons_of_mem a hm))]
        omega

/-! ## Entries with an effect -/

/-- Whether the last entry is kept depends on the one before it. -/
theorem dropIdle_append_singleton (before : Option Mapping) (table : MappingTable) (m : Mapping) :
    dropIdle before (table ++ [m]) =
      dropIdle before table ++ if isEffective (table.getLast?.or before) m then [m] else [] := by
  induction table generalizing before with
  | nil => rfl
  | cons a rest ih =>
    have hlast : (a :: rest).getLast?.or before = rest.getLast?.or (some a) := by
      cases rest with
      | nil => rfl
      | cons b rest => rw [List.getLast?_cons_cons]; simp [List.getLast?_cons]
    rw [List.cons_append, dropIdle, ih, dropIdle, hlast]
    split <;> rfl

/-- In a table with one entry at a place the last entry covers what it can. -/
theorem cover?_append_singleton {table : MappingTable} {m : Mapping}
    (hp : (table ++ [m]).Placed) (hi : (table ++ [m]).Increasing) (p : Position) :
    (table ++ [m]).cover? p = if m.place.covers p then some m else table.cover? p := by
  have hle : ∀ a ∈ table, ∀ b ∈ [m], a.place.covers p = true → b.place.covers p = true →
      a.place.column ≤ b.place.column := by
    intro a ha b hb hca hcb
    have hs := Position.le_iff.mp ((List.pairwise_append.mp (hi.sorted hp)).2.2 a ha b hb)
    have hca := Position.covers_iff.mp hca
    have hcb := Position.covers_iff.mp hcb
    omega
  unfold cover?
  rw [latest_append_of_le hle, latest]
  split <;> simp [latest]

/-- Where no entry stands on the line of a place, the place is mapped to nothing. -/
theorem origin?_of_line_ne {table : MappingTable} {p : Position}
    (h : ∀ a ∈ table, a.place.line ≠ p.line) : table.origin? p = none := by
  have hcover : table.cover? p = none := by
    apply latest_eq_none
    intro a ha
    rw [← Bool.not_eq_true, Position.covers_iff]
    exact fun hc => h a ha hc.1
  rw [origin?, hcover]
  rfl

/-- An entry without effect ends no range. -/
theorem origin?_of_idle {table : MappingTable} {m : Mapping} (hp : (table ++ [m]).Placed)
    (hi : (table ++ [m]).Increasing) (hidle : isEffective table.getLast? m = false)
    {p : Position} (hm : m.place.covers p = true) : table.origin? p = none := by
  have hline := (Position.covers_iff.mp hm).1
  have hbefore : ∀ a ∈ table, a.place.line < m.place.line ∨
      (a.place.line = m.place.line ∧ a.place.column < m.place.column) := fun a ha =>
    (Mapping.precedes_iff (hp a (by simp [ha])) (hp m (by simp))).mp
      ((List.pairwise_append.mp hi).2.2 a ha m (by simp))
  unfold isEffective at hidle
  split at hidle
  · cases hidle
  · split at hidle
    · -- at the start of a line nothing stands on it before
      rename_i hzero
      have hzero : m.place.column = 0 :=
        Number.natCast_inj.mp ((hp m (by simp)).column.symm.trans hzero)
      apply origin?_of_line_ne
      intro a ha
      have := hbefore a ha
      omega
    · rcases List.eq_nil_or_concat table with rfl | ⟨first, b, rfl⟩
      · rfl
      · simp only [List.concat_eq_append, List.getLast?_concat] at *
        have hpb : Placed (first ++ [b]) := fun a ha => hp a (by simp at ha ⊢; tauto)
        have hib : Increasing (first ++ [b]) := (List.pairwise_append.mp hi).1
        by_cases hb : b.place.line = m.place.line
        · -- the entry before covers the place, and is generated only as well
          have hcb : b.place.covers p = true := by
            rw [Position.covers_iff] at hm ⊢
            have := hbefore b (by simp)
            omega
          rw [(hp b (by simp)).line, (hp m (by simp)).line, hb] at hidle
          simp only [decide_true, Bool.true_and] at hidle
          rw [origin?, cover?_append_singleton hpb hib, if_pos hcb]
          simpa using hidle
        · apply origin?_of_line_ne
          intro a ha
          have hab : a.place.line ≤ b.place.line := by
            rcases List.mem_append.mp ha with ha | ha
            · have := (List.pairwise_append.mp hib).2.2 a ha b (by simp)
              rw [Mapping.precedes_iff (hpb a (by simp [ha])) (hpb b (by simp))] at this
              omega
            · exact Nat.le_of_eq (by rw [List.mem_singleton.mp ha])
          have := hbefore b (by simp)
          omega

/-- Dropping the entries without effect does not change what a place is mapped to. -/
theorem origin?_dropIdle {table : MappingTable} (hp : table.Placed) (hi : table.Increasing)
    (p : Position) : (dropIdle none table).origin? p = table.origin? p := by
  -- by induction from the end, since the last entry that covers a place decides
  induction table using List.reverseRecOn with
  | nil => rfl
  | append_singleton table m ih =>
    have hp' : Placed table := fun a ha => hp a (by simp [ha])
    have ih := ih hp' (List.pairwise_append.mp hi).1
    have hsub := dropIdle_sublist none table
    rw [dropIdle_append_singleton, Option.or_none]
    cases he : isEffective table.getLast? m with
    | true =>
      have hsub' : List.Sublist (dropIdle none table ++ [m]) (table ++ [m]) :=
        hsub.append (List.Sublist.refl [m])
      rw [if_pos rfl, origin?, origin?, cover?_append_singleton hp hi,
        cover?_append_singleton (fun a ha => hp a (hsub'.subset ha)) (hi.sublist hsub')]
      split
      · rfl
      · exact ih
    | false =>
      rw [if_neg Bool.false_ne_true, List.append_nil, ih]
      by_cases hm : m.place.covers p = true
      · have hidle : m.origin = none := by
          cases ho : m.origin with
          | none => rfl
          | some o => simp [isEffective, ho] at he
        rw [origin?_of_idle hp hi he hm, origin?, cover?_append_singleton hp hi, if_pos hm]
        simp [hidle]
      · rw [origin?, origin?, cover?_append_singleton hp hi, if_neg hm]

/-! ## The normal form -/

/-- The entries of a normal form stand at their places if those it is made of do. -/
theorem normalForm_placed {entries : MappingTable} (hp : entries.Placed) :
    (normalForm entries).Placed := fun m hm => hp m (normalForm_subset hm)

/-- A normal form has one entry at a place at most. -/
theorem normalForm_increasing {entries : MappingTable} (hp : entries.Placed) :
    (normalForm entries).Increasing := by
  have hp' : (sort entries).Placed := fun m hm => hp m ((sort_perm entries).mem_iff.mp hm)
  exact (keepLast_increasing hp' (sort_sorted hp)).sublist (dropIdle_sublist _ _)

theorem origin?_normalForm {entries : MappingTable} (hp : entries.Placed) (p : Position) :
    (normalForm entries).origin? p = entries.origin? p := by
  have hp' : (sort entries).Placed := fun m hm => hp m ((sort_perm entries).mem_iff.mp hm)
  have hkept : (keepLast (sort entries)).Placed := fun m hm => hp' m ((keepLast_sublist _).subset hm)
  unfold normalForm
  rw [origin?_dropIdle hkept (keepLast_increasing hp' (sort_sorted hp)), origin?, origin?,
    cover?_keepLast hp', cover?_sort hp]

/-- **What a normal form maps a place to.**  It is what the last inserted of the entries with the
greatest column at or before the place on its line maps it to. -/
theorem trace?_normalForm {entries : MappingTable} (hp : entries.Placed) (p : Position) :
    (normalForm entries).trace? (p.line : Number) (p.column : Number) = entries.origin? p := by
  have hi := normalForm_increasing hp
  rw [trace?_eq_origin? (normalForm_placed hp) (hi.sorted (normalForm_placed hp)),
    origin?_normalForm hp]

end Provenance.MappingTable
