/-
# Tables that stay as they are

In a table in normal form every entry without an origin directly follows, on its own line, an entry
with one: the table is closed.  Being in order, with one entry at a place at most, and closed is all
there is to a normal form, so that a table with these properties is its own normal form.  A table
reduced to the starts of its lines has them, too, and is not reduced any further.

The main facts:

* `normalForm_closed` : a normal form is closed;
* `normalForm_eq_self` : an increasing closed table is its own normal form;
* `firstOfLines_increasing`, `firstOfLines_closed` : the table of lines is increasing and closed;
* `firstOfLines_firstOfLines` : the table of lines is its own table of lines.
-/
import Provenance.Proofs.Mapping.Normal

namespace Provenance.MappingTable

open Text (Position)

variable {table : MappingTable} {m : Mapping}

/-! ## Closed tables -/

/-- Every entry without an origin directly follows, on its own line, an entry with one. -/
def Closed (table : MappingTable) : Prop :=
  ∀ before m after, table = before ++ m :: after → m.origin = none →
    ∃ b ∈ before.getLast?, b.line = m.line ∧ b.origin.isSome

theorem closed_nil : Closed [] := by
  intro before m after h
  simp at h

/-- A table of entries with origins is closed. -/
theorem closed_of_forall_isSome (h : ∀ m ∈ table, m.origin.isSome) : table.Closed := by
  rintro before m after rfl hm
  have hsome := h m (List.mem_append_right _ List.mem_cons_self)
  rw [hm] at hsome
  cases hsome

/-- A table stays closed with a last entry that has an origin, or ends the range of one that has. -/
theorem closed_concat : Closed (table ++ [m]) ↔
    table.Closed ∧ (m.origin = none → ∃ b ∈ table.getLast?, b.line = m.line ∧ b.origin.isSome) := by
  constructor
  · intro h
    refine ⟨?_, h table m [] rfl⟩
    rintro before x after rfl hx
    exact h before x (after ++ [m]) (by simp) hx
  · rintro ⟨htable, hm⟩ before x after heq hx
    rcases List.eq_nil_or_concat after with rfl | ⟨others, y, rfl⟩
    · obtain ⟨rfl, rfl⟩ := List.append_inj' heq rfl |>.imp id fun h => (List.cons.inj h).1
      exact hm hx
    · have hsplit : table ++ [m] = (before ++ x :: others) ++ [y] := by simpa using heq
      exact htable before x others (List.append_inj' hsplit rfl).1 hx

/-! ## Normal forms -/

theorem isEffective_iff {before : Option Mapping} : isEffective before m = true ↔
    m.origin.isSome ∨ (m.column ≠ 0 ∧ ∃ b ∈ before, b.line = m.line ∧ b.origin.isSome) := by
  unfold isEffective
  by_cases horigin : m.origin.isSome = true
  · simp [horigin]
  · by_cases hcolumn : m.column = 0
    · simp [horigin, hcolumn]
    · cases before with
      | none => simp [horigin]
      | some b => simp [horigin]

/-- What ends the range of an entry is kept right behind it. -/
theorem dropIdle_closed (table : MappingTable) : (dropIdle none table).Closed := by
  induction table using List.reverseRecOn with
  | nil => exact closed_nil
  | append_singleton table m ih =>
    rw [dropIdle_append_singleton]
    split
    · rename_i heffective
      refine closed_concat.mpr ⟨ih, fun hm => ?_⟩
      rw [Option.or_none, isEffective_iff, hm] at heffective
      obtain ⟨-, b, hlast, heffect⟩ := heffective.resolve_left (by simp)
      -- the entry before has an origin, so it is kept
      obtain ⟨rest, rfl⟩ := List.getLast?_eq_some_iff.mp hlast
      rw [dropIdle_append_singleton, if_pos (isEffective_iff.mpr (Or.inl heffect.2)),
        List.getLast?_concat]
      exact ⟨b, rfl, heffect⟩
    · rw [List.append_nil]
      exact ih

/-- What ends a range does not start a line. -/
theorem column_ne_zero_of_mem_dropIdle {before : Option Mapping} (h : m ∈ dropIdle before table)
    (horigin : m.origin = none) : m.column ≠ 0 := by
  induction table generalizing before with
  | nil => cases h
  | cons a rest ih =>
    rw [dropIdle] at h
    split at h
    · rename_i heffective
      rcases List.mem_cons.mp h with rfl | h
      · rw [isEffective_iff, horigin] at heffective
        exact (heffective.resolve_left (by simp)).1
      · exact ih h
    · exact ih h

/-- **A normal form is closed.** -/
theorem normalForm_closed (entries : MappingTable) : (normalForm entries).Closed :=
  dropIdle_closed _

/-- Where no two entries share a position, all are kept. -/
theorem keepLast_eq_self_of_pairwise (h : table.Pairwise fun a b => ¬ a.sharesPosition b = true) :
    keepLast table = table := by
  induction table with
  | nil => rfl
  | cons a rest ih =>
    cases rest with
    | nil => rfl
    | cons b rest =>
      rw [keepLast, if_neg (List.rel_of_pairwise_cons h List.mem_cons_self), ih h.of_cons]

theorem keepLast_eq_self (hplaced : table.Placed) (hincreasing : table.Increasing) :
    keepLast table = table := by
  refine keepLast_eq_self_of_pairwise (hincreasing.imp_of_mem fun {a b} ha hb hab => ?_)
  rw [Mapping.precedes_iff (hplaced a ha) (hplaced b hb)] at hab
  rw [Mapping.sharesPosition_iff (hplaced a ha) (hplaced b hb), Text.Position.ext_iff']
  omega

/-- In a closed table no entry is idle, if those without an origin do not start lines. -/
theorem dropIdle_eq_self_of_closed (hclosed : table.Closed)
    (hcolumn : ∀ m ∈ table, m.origin = none → m.column ≠ 0) : dropIdle none table = table := by
  induction table using List.reverseRecOn with
  | nil => rfl
  | append_singleton table m ih =>
    obtain ⟨htable, hm⟩ := List.forall_mem_append.mp hcolumn
    obtain ⟨hinit, hlast⟩ := closed_concat.mp hclosed
    have heffective : isEffective (table.getLast?.or none) m = true := by
      rw [Option.or_none, isEffective_iff]
      cases horigin : m.origin with
      | some o => exact Or.inl rfl
      | none => exact Or.inr ⟨hm m List.mem_cons_self horigin, hlast horigin⟩
    rw [dropIdle_append_singleton, ih hinit htable, if_pos heffective]

theorem dropIdle_eq_self (hplaced : table.Placed) (hincreasing : table.Increasing)
    (hclosed : table.Closed) : dropIdle none table = table := by
  refine dropIdle_eq_self_of_closed hclosed fun m hm horigin hzero => ?_
  -- something stands before the entry on its line, so its column is not the first
  obtain ⟨before, after, rfl⟩ := List.append_of_mem hm
  obtain ⟨b, hb, hline, -⟩ := hclosed before m after rfl horigin
  have hmem := List.mem_of_getLast? hb
  have hbm := (List.pairwise_append.mp hincreasing).2.2 b hmem m List.mem_cons_self
  rw [Mapping.precedes_iff (hplaced b (by simp [hmem])) (hplaced m hm)] at hbm
  have hplace : b.place.line = m.place.line := by rw [Mapping.place, Mapping.place, hline]
  have hcolumn : (m.place.column : Number) = ((0 : Nat) : Number) := (hplaced m hm).column ▸ hzero
  have := Number.natCast_inj.mp hcolumn
  omega

/-- **An increasing closed table is its own normal form.** -/
theorem normalForm_eq_self (hplaced : table.Placed) (hincreasing : table.Increasing)
    (hclosed : table.Closed) : normalForm table = table := by
  have horder := (inOrder_iff_sorted hplaced).mpr (hincreasing.sorted hplaced)
  rw [normalForm, sort_of_inOrder horder, keepLast_eq_self hplaced hincreasing,
    dropIdle_eq_self hplaced hincreasing hclosed]

/-! ## Tables of lines -/

/-- An entry of the table of lines is made of an entry with an origin. -/
theorem exists_of_mem_linesAfter {line : Number} (h : m ∈ linesAfter line table) :
    ∃ own ∈ table, ∃ o ∈ own.origin, m = ⟨own.line, 0, some ⟨o.source, o.line, 0, none⟩⟩ := by
  induction table generalizing line with
  | nil => simp [linesAfter] at h
  | cons first rest ih =>
    have hrest : ∀ line, m ∈ linesAfter line rest →
        ∃ own ∈ first :: rest, ∃ o ∈ own.origin,
          m = ⟨own.line, 0, some ⟨o.source, o.line, 0, none⟩⟩ := by
      intro line hm
      obtain ⟨own, hown, ho⟩ := ih hm
      exact ⟨own, List.mem_cons_of_mem _ hown, ho⟩
    rw [linesAfter] at h
    cases horigin : first.origin with
    | none =>
      rw [horigin] at h
      exact hrest line h
    | some o =>
      simp only [horigin] at h
      split at h
      · exact hrest line h
      · rcases List.mem_cons.mp h with rfl | h
        · exact ⟨first, List.mem_cons_self, o, horigin, rfl⟩
        · exact hrest _ h

theorem exists_of_mem_firstOfLines (h : m ∈ table.firstOfLines) :
    ∃ own ∈ table, ∃ o ∈ own.origin, m = ⟨own.line, 0, some ⟨o.source, o.line, 0, none⟩⟩ :=
  exists_of_mem_linesAfter h

/-- Every entry of the table of lines has an origin. -/
theorem firstOfLines_closed (table : MappingTable) : table.firstOfLines.Closed := by
  refine closed_of_forall_isSome fun m hm => ?_
  obtain ⟨own, -, o, -, rfl⟩ := exists_of_mem_firstOfLines hm
  rfl

/-- The entries of a table in order, reduced to the starts of their lines, are on later and later
lines. -/
theorem linesAfter_increasing (line : Int) (hplaced : table.Placed) (hsorted : table.Sorted)
    (hline : ∀ m ∈ table, line ≤ m.place.line) :
    (∀ m ∈ linesAfter (line : Number) table, m.Placed ∧ line < m.place.line) ∧
      (linesAfter (line : Number) table).Increasing := by
  induction table generalizing line with
  | nil => exact ⟨by simp [linesAfter], List.Pairwise.nil⟩
  | cons first rest ih =>
    obtain ⟨hfirst, hrest⟩ := List.forall_mem_cons.mp hplaced
    obtain ⟨hle, hbehind⟩ := List.forall_mem_cons.mp hline
    rw [linesAfter]
    cases first.origin with
    | none => exact ih line hrest hsorted.of_cons hbehind
    | some o =>
      dsimp only
      split
      · exact ih line hrest hsorted.of_cons hbehind
      · rename_i hne
        rw [hfirst.line, ← Number.intCast_natCast, Number.intCast_inj] at hne
        have hnext : ∀ m ∈ rest, (first.place.line : Int) ≤ m.place.line := by
          intro m hm
          have := Position.le_iff.mp (List.rel_of_pairwise_cons hsorted hm)
          omega
        obtain ⟨hlater, hincreasing⟩ := ih _ hrest hsorted.of_cons hnext
        rw [Number.intCast_natCast, ← hfirst.line] at hlater hincreasing
        have hstart : Mapping.Placed ⟨first.line, 0, some ⟨o.source, o.line, 0, none⟩⟩ := by
          rw [hfirst.line]
          exact Mapping.placed_mk _ 0 _
        have hplace : (Mapping.mk first.line 0 (some ⟨o.source, o.line, 0, none⟩)).place =
            ⟨first.place.line, 0⟩ := by
          rw [hfirst.line]
          exact Mapping.place_mk _ 0 _
        refine ⟨List.forall_mem_cons.mpr ⟨⟨hstart, ?_⟩, fun m hm => ?_⟩,
          List.Pairwise.cons (fun m hm => ?_) hincreasing⟩
        · rw [hplace]
          exact Int.lt_iff_le_and_ne.mpr ⟨hle, Ne.symm hne⟩
        · obtain ⟨hm, hlt⟩ := hlater m hm
          exact ⟨hm, by omega⟩
        · obtain ⟨hm, hlt⟩ := hlater m hm
          rw [Mapping.precedes_iff hstart hm, hplace]
          exact Or.inl (Int.ofNat_lt.mp hlt)

/-- The table of lines of a table in order is increasing. -/
theorem firstOfLines_increasing (hplaced : table.Placed) (hsorted : table.Sorted) :
    table.firstOfLines.Placed ∧ table.firstOfLines.Increasing := by
  obtain ⟨hentries, hincreasing⟩ :=
    linesAfter_increasing (-1) hplaced hsorted fun m _ => by omega
  exact ⟨fun m hm => (hentries m hm).1, hincreasing⟩

theorem linesAfter_linesAfter (line : Number) (table : MappingTable) :
    linesAfter line (linesAfter line table) = linesAfter line table := by
  induction table generalizing line with
  | nil => rfl
  | cons first rest ih =>
    rw [linesAfter]
    cases first.origin with
    | none => exact ih line
    | some o =>
      dsimp only
      split
      · exact ih line
      · rename_i hne
        rw [linesAfter]
        dsimp only
        rw [if_neg hne, ih]

/-- **The table of lines is its own table of lines.** -/
theorem firstOfLines_firstOfLines (table : MappingTable) :
    table.firstOfLines.firstOfLines = table.firstOfLines := linesAfter_linesAfter _ table

end Provenance.MappingTable
