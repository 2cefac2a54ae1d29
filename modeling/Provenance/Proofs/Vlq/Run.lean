/-
# Runs of continued digits

The digits with the continuation bit that stand one after the other in a text are the groups of one
field.  A unit that is none of them ends a run.

The main facts:

* `runsWithin_append_cons` : a unit that is not continued cuts the runs of a text;
* `Sealed.append`, `sealed_text` : texts that end every run, such as short numerals, have no longer
  runs together than they have apart.
-/
import Provenance.Proofs.Vlq.Numeral

namespace Provenance.Vlq

variable {limit : Nat} {s t : Text} {u : CodeUnit}

/-- No run of continued digits is longer than the limit. -/
def RunsWithin (limit : Nat) (t : Text) : Prop :=
  ∀ run, run <:+: t → (∀ u ∈ run, continues u = true) → run.length ≤ limit

/-- The runs of a part of a text are no longer than those of the text. -/
theorem RunsWithin.of_infix (h : RunsWithin limit t) (hst : s <:+: t) : RunsWithin limit s :=
  fun run hrun hall => h run (hrun.trans hst) hall

/-- The runs of a text are no longer than the text. -/
theorem runsWithin_of_length_le (h : t.length ≤ limit) : RunsWithin limit t :=
  fun _ hrun _ => Nat.le_trans hrun.length_le h

/-- No run starts with a unit that is not continued. -/
theorem eq_nil_of_prefix_cons {run : Text} (hu : continues u = false) (hrun : run <+: u :: t)
    (hall : ∀ v ∈ run, continues v = true) : run = [] := by
  cases run with
  | nil => rfl
  | cons v run =>
    obtain ⟨rest, h⟩ := hrun
    have hv := hall v List.mem_cons_self
    rw [(List.cons.inj h).1, hu] at hv
    cases hv

/-- **A unit that is not continued cuts the runs of a text.** -/
theorem runsWithin_append_cons (hu : continues u = false) :
    RunsWithin limit (s ++ u :: t) ↔ RunsWithin limit s ∧ RunsWithin limit t := by
  constructor
  · intro h
    refine ⟨h.of_infix (List.prefix_append s (u :: t)).isInfix, h.of_infix ?_⟩
    exact ((List.suffix_cons u t).trans (List.suffix_append s (u :: t))).isInfix
  · rintro ⟨hs, ht⟩ run hrun hall
    rcases List.infix_append_iff.mp hrun with hrun | hrun | ⟨left, right, rfl, hleft, hright⟩
    · exact hs run hrun hall
    · rcases List.infix_cons_iff.mp hrun with hrun | hrun
      · rw [eq_nil_of_prefix_cons hu hrun hall]
        exact Nat.zero_le limit
      · exact ht run hrun hall
    -- what a run has behind `s` would start with the unit
    · have hnil := eq_nil_of_prefix_cons hu hright fun v hv =>
        hall v (List.mem_append_right left hv)
      rw [hnil, List.append_nil] at hall ⊢
      exact hs left hleft.isInfix hall

/-- Whatever is put behind a sealed text, no run becomes longer than the limit that was not. -/
def Sealed (limit : Nat) (s : Text) : Prop := ∀ t, RunsWithin limit t → RunsWithin limit (s ++ t)

theorem sealed_nil : Sealed limit [] := fun _ ht => ht

theorem Sealed.append (hs : Sealed limit s) (ht : Sealed limit t) : Sealed limit (s ++ t) := by
  intro rest hrest
  rw [List.append_assoc]
  exact hs _ (ht rest hrest)

theorem Sealed.runsWithin (h : Sealed limit s) : RunsWithin limit s := by
  have hs := h [] (runsWithin_of_length_le (Nat.zero_le limit))
  rwa [List.append_nil] at hs

theorem sealed_singleton (hu : continues u = false) : Sealed limit [u] := by
  intro t ht
  exact (runsWithin_append_cons (s := []) hu).mpr
    ⟨runsWithin_of_length_le (Nat.zero_le limit), ht⟩

theorem sealed_flatMap {α : Type} {f : α → Text} {xs : List α} (h : ∀ x ∈ xs, Sealed limit (f x)) :
    Sealed limit (xs.flatMap f) := by
  induction xs with
  | nil => exact sealed_nil
  | cons x rest ih =>
    obtain ⟨hx, hrest⟩ := List.forall_mem_cons.mp h
    rw [List.flatMap_cons]
    exact hx.append (ih hrest)

/-- Joined texts are sealed if the texts and the separator are. -/
theorem sealed_join {separator : Text} {ts : List Text} (hseparator : Sealed limit separator)
    (h : ∀ t ∈ ts, Sealed limit t) : Sealed limit (Text.join separator ts) := by
  unfold Text.join
  induction ts with
  | nil => exact sealed_nil
  | cons t rest ih =>
    obtain ⟨ht, hrest⟩ := List.forall_mem_cons.mp h
    cases rest with
    | nil =>
      rw [List.intercalate_singleton]
      exact ht
    | cons t' rest =>
      rw [List.intercalate_cons_cons]
      exact (ht.append hseparator).append (ih hrest)

/-- Short numerals are sealed. -/
theorem sealed_text {n : Numeral} (h : n.Short) : Sealed (finitePlaces - 1) n.text := by
  intro t ht
  rw [Numeral.text, List.append_assoc, List.singleton_append]
  refine (runsWithin_append_cons (continues_lastUnit n.last)).mpr ⟨?_, ht⟩
  apply runsWithin_of_length_le
  rw [List.length_map]
  exact Nat.le_sub_one_of_lt h

/-- A numeral is short if it has no longer run than a short one. -/
theorem short_of_runsWithin {n : Numeral} (h : RunsWithin (finitePlaces - 1) n.text) : n.Short := by
  have hrun := h _ (List.prefix_append (n.continued.map continuedUnit) [lastUnit n.last]).isInfix
    fun u hu => by
      obtain ⟨g, -, rfl⟩ := List.mem_map.mp hu
      exact continues_continuedUnit g
  rw [List.length_map] at hrun
  exact Nat.lt_of_le_pred (by decide) hrun

end Provenance.Vlq
