/-
# Where the reading of fields fails

In a text without separators the reading of a field fails at a unit that is no digit, at the end of the
text, or because the field exceeds 32 bits.  A unit that is no digit is found whatever comes behind it.

The main facts:

* `readAll_eq_error` : how the reading of fields fails, and where;
* `readAll_append_of_invalidUnit` : a unit that is no digit is found whatever comes behind it.
-/
import Provenance.Proofs.Vlq.Numeral

namespace Provenance.Vlq

/-- No separator stands in a text. -/
def SeparatorFree (t : Text) : Prop := ∀ u ∈ t, endsFields u = false

variable {start place : Nat} {sum : Option Nat} {t : Text} {e : DecodeError}

/-! ## How reading fails -/

/-- How the reading of a field fails in a text without separators. -/
theorem readDigits_eq_error (ht : SeparatorFree t) (h : readDigits start place sum t = .error e) :
    e = .truncated (start + place + t.length) ∨
      (∃ u p, e = .invalidUnit u p ∧ start + place ≤ p ∧ p < start + place + t.length) ∨
      ∃ digits, e = .tooLarge start digits := by
  induction t generalizing place sum with
  | nil => exact Or.inl (Except.error.inj h).symm
  | cons u rest ih =>
    obtain ⟨hu, hrest⟩ := List.forall_mem_cons.mp ht
    rw [readDigits, hu, if_neg Bool.false_ne_true] at h
    rw [List.length_cons]
    split at h
    · exact Or.inr (Or.inl ⟨u, _, (Except.error.inj h).symm, Nat.le_refl _, by omega⟩)
    split at h
    · exact Or.inr (Or.inr ⟨_, (Except.error.inj h).symm⟩)
    split at h
    · rcases ih hrest h with rfl | ⟨v, p, rfl, hlow, hhigh⟩ | htooLarge
      · exact Or.inl (congrArg _ (by omega))
      · exact Or.inr (Or.inl ⟨v, p, rfl, by omega, by omega⟩)
      · exact Or.inr (Or.inr htooLarge)
    · cases h

/-- The rest of a field's text is what stands behind the field. -/
theorem separatorFree_rest {f : Field} (ht : SeparatorFree t)
    (h : readDigits start place sum t = .ok f) : SeparatorFree f.rest := by
  induction t generalizing place sum with
  | nil => cases h
  | cons u rest ih =>
    obtain ⟨hu, hrest⟩ := List.forall_mem_cons.mp ht
    rw [readDigits, hu, if_neg Bool.false_ne_true] at h
    split at h
    · cases h
    split at h
    · cases h
    split at h
    · exact ih hrest h
    · obtain rfl := Except.ok.inj h
      exact hrest

/-- **How the reading of fields fails** in a text without separators, and where. -/
theorem readAll_eq_error (ht : SeparatorFree t) (h : (readAll start t).error = some e) :
    e = .truncated (start + t.length) ∨
      (∃ u p, e = .invalidUnit u p ∧ start ≤ p ∧ p < start + t.length) ∨
      ∃ p digits, e = .tooLarge p digits ∧ start ≤ p ∧ p ≤ start + t.length := by
  fun_induction readAll start t with
  | case1 => cases h
  | case2 start t hne e' he =>
    obtain rfl := Option.some.inj h
    rcases readDigits_eq_error ht he with rfl | ⟨u, p, rfl, hlow, hhigh⟩ | ⟨digits, rfl⟩
    · exact Or.inl rfl
    · exact Or.inr (Or.inl ⟨u, p, rfl, hlow, hhigh⟩)
    · exact Or.inr (Or.inr ⟨start, digits, rfl, Nat.le_refl _, Nat.le_add_right _ _⟩)
  | case3 start t hne f hf others ih =>
    have hlength := stop_add_length hf
    have hrest := readValue_length hf
    rcases ih (separatorFree_rest ht hf) h with rfl | ⟨u, p, rfl, hlow, hhigh⟩ |
      ⟨p, digits, rfl, hlow, hhigh⟩
    · exact Or.inl (congrArg _ hlength)
    · exact Or.inr (Or.inl ⟨u, p, rfl, by omega, by omega⟩)
    · exact Or.inr (Or.inr ⟨p, digits, rfl, by omega, by omega⟩)

/-! ## What comes behind -/

/-- The units at the front of a text are read in one of three ways, whatever comes behind them: there is
a fault in them, a field ends in them, or they belong to a field that goes on. -/
theorem readDigits_append (start place : Nat) (sum : Option Nat) (front : Text) :
    (∃ e, ∀ t, readDigits start place sum (front ++ t) = .error e) ∨
      (∃ value stop rest, stop + rest.length = start + place + front.length ∧
        rest.length < front.length ∧
        ∀ t, readDigits start place sum (front ++ t) = .ok ⟨value, stop, rest ++ t⟩) ∨
      ∃ sum', ∀ t, readDigits start place sum (front ++ t) =
        readDigits start (place + front.length) sum' t := by
  induction front generalizing place sum with
  | nil => exact Or.inr (Or.inr ⟨sum, fun t => rfl⟩)
  | cons u rest ih =>
    simp only [List.cons_append, readDigits, List.length_cons]
    cases endsFields u with
    | true => exact Or.inl ⟨_, fun t => rfl⟩
    | false =>
      simp only [Bool.false_eq_true, if_false]
      cases Base64.digitOf? u with
      | none => exact Or.inl ⟨_, fun t => rfl⟩
      | some d =>
        cases hsum : addGroup place sum (d % 32) with
        | none =>
          simp only [hsum]
          exact Or.inl ⟨_, fun t => rfl⟩
        | some sum' =>
          simp only [hsum]
          by_cases hd : 32 ≤ d
          · simp only [if_pos hd]
            rcases ih (place + 1) sum' with h | ⟨value, stop, rest', hstop, hlt, h⟩ | ⟨sum'', h⟩
            · exact Or.inl h
            · exact Or.inr (Or.inl ⟨value, stop, rest', by omega, by omega, h⟩)
            · refine Or.inr (Or.inr ⟨sum'', fun t => (h t).trans ?_⟩)
              rw [Nat.add_assoc, Nat.add_comm 1]
          · simp only [if_neg hd]
            exact Or.inr (Or.inl ⟨_, _, rest, by omega, by omega, fun t => rfl⟩)

/-- A field that cannot be read ends the reading. -/
theorem readAll_of_readValue_error (h : readValue start t = .error e) (hne : t ≠ []) :
    readAll start t = ⟨[], some e⟩ := by
  rw [readAll, if_neg hne]
  split
  · rename_i e' he
    rw [h] at he
    rw [Except.error.inj he]
  · rename_i f hf
    rw [h] at hf
    cases hf

/-- What goes wrong in a text without separators goes wrong in it, not before. -/
theorem le_position_of_readAll (ht : SeparatorFree t) (h : (readAll start t).error = some e) :
    start ≤ e.position := by
  rcases readAll_eq_error ht h with rfl | ⟨u, p, rfl, hlow, -⟩ | ⟨p, digits, rfl, hlow, -⟩
  · exact Nat.le_add_right start t.length
  · exact hlow
  · exact hlow

/-- **A unit that is no digit is found whatever comes behind it.** -/
theorem readAll_append_of_invalidUnit {front : Text} {u : CodeUnit} {p : Nat} (ht : SeparatorFree t)
    (h : (readAll start (front ++ t)).error = some (.invalidUnit u p))
    (hp : p < start + front.length) (t' : Text) :
    (readAll start (front ++ t')).error = some (.invalidUnit u p) := by
  -- each field that ends in the units at the front leaves fewer of them
  induction hn : front.length using Nat.strongRecOn generalizing start front with
  | ind n ih =>
    by_cases hne : front = []
    · rw [hne, List.nil_append] at h
      have hlow : start ≤ p := le_position_of_readAll ht h
      rw [hne, List.length_nil] at hp
      omega
    have hne' : ∀ s, front ++ s ≠ [] := fun s hs => hne (List.append_eq_nil_iff.mp hs).1
    rcases readDigits_append start 0 (some 0) front with ⟨e, hread⟩ |
      ⟨value, stop, rest, hstop, hlt, hread⟩ | ⟨sum, hread⟩
    · rw [readAll_of_readValue_error (hread t) (hne' t)] at h
      rw [readAll_of_readValue_error (hread t') (hne' t')]
      exact h
    · rw [readAll_of_readValue (hread t)] at h
      rw [readAll_of_readValue (hread t')]
      have hp : p < stop + rest.length := by omega
      exact ih rest.length (hn ▸ hlt) h hp rfl
    · -- the field goes on behind the units at the front, where the unit that is no digit is not
      exfalso
      rw [Nat.zero_add] at hread
      cases hvalue : readDigits start front.length sum t with
      | error e =>
        rw [readAll_of_readValue_error ((hread t).trans hvalue) (hne' t)] at h
        rw [Option.some.inj h] at hvalue
        rcases readDigits_eq_error ht hvalue with herror | ⟨v, p', herror, hlow, -⟩ |
          ⟨digits, herror⟩
        · cases herror
        · obtain ⟨rfl, rfl⟩ := DecodeError.invalidUnit.inj herror
          omega
        · cases herror
      | ok f =>
        rw [readAll_of_readValue ((hread t).trans hvalue)] at h
        have hlow : f.stop ≤ p := le_position_of_readAll (separatorFree_rest ht hvalue) h
        obtain ⟨hstop, hlt⟩ := readDigits_stop hvalue
        omega

end Provenance.Vlq
