/-
# What is decoded

Every number of a decoded entry is a natural that steps of 31 bits lead to, unless a field too long for
a value has left it without one.  A table whose generated columns all have a value is in order.

The main facts:

* `reached_of_decode` : generated lines are naturals, and all other numbers are reached by steps;
* `isAscii_of_decode` : a mappings text that can be decoded is ASCII;
* `decode_placed`, `decode_sorted` : a table whose columns have values stands at places in order.
-/
import Provenance.Proofs.Mapping.Place
import Provenance.Proofs.Mapping.Running
import Provenance.Proofs.Number.Steps
import Provenance.Proofs.Text.Utf8

namespace Provenance

namespace Vlq

/-- A sum of groups has 32 bits, where it has a value. -/
theorem le_of_addGroup {place group : Nat} {sum sum' : Option Nat}
    (h : addGroup place sum group = some sum') : ∀ total ∈ sum', total ≤ maxWord := by
  unfold addGroup at h
  intro total htotal
  obtain rfl := Option.mem_def.mp htotal
  split at h
  · cases h
  · split at h
    · split at h
      · rename_i hle
        rw [← Option.some.inj (Option.some.inj h)]
        exact hle
      · cases h
    · split at h <;> cases h

theorem step_signed {sum : Option Nat} (h : ∀ total ∈ sum, total ≤ maxWord) :
    (signed sum).Step := by
  unfold signed
  split
  · exact Or.inl rfl
  · rename_i total
    have hle := h total rfl
    unfold maxWord at hle
    split
    · exact Or.inr ⟨_, by omega, rfl⟩
    · exact Or.inr ⟨_, by omega, (Number.intCast_natCast _).symm⟩

theorem step_of_readDigits {start place : Nat} {sum : Option Nat} {t : Text} {f : Field}
    (h : readDigits start place sum t = .ok f) : f.value.Step := by
  induction t generalizing place sum with
  | nil => cases h
  | cons u rest ih =>
    obtain ⟨g, sum', hsum, ⟨rest', ht, h⟩ | ⟨-, hvalue⟩⟩ := readDigits_cases h
    · obtain ⟨-, rfl⟩ := List.cons.inj ht
      exact ih h
    · rw [hvalue]
      exact step_signed (le_of_addGroup hsum)

/-- The values of fields are integers of 31 bits where they are any. -/
theorem step_of_readAll (start : Nat) (t : Text) :
    ∀ f ∈ (readAll start t).fields, f.value.Step := by
  fun_induction readAll start t with
  | case1 => simp
  | case2 => simp
  | case3 start t hne f h others ih =>
    intro g hg
    rcases List.mem_cons.mp hg with rfl | hg
    · exact step_of_readDigits h
    · exact ih g hg

theorem step_of_values {start : Nat} {t : Text} {values : List Number}
    (h : (readAll start t).values = .ok values) : ∀ x ∈ values, x.Step := by
  obtain ⟨-, rfl⟩ := values_eq_ok_iff.mp h
  intro x hx
  obtain ⟨f, hf, rfl⟩ := List.mem_map.mp hx
  exact step_of_readAll start t f hf

/-! ## Units of fields -/

/-- A digit is ASCII. -/
theorem lt_of_digitOf? {u : CodeUnit} {d : Nat} (h : Base64.digitOf? u = some d) :
    u.toNat < 0x80 := by
  simp only [Base64.digitOf?] at h
  grind

/-- A unit of a field is ASCII, or belongs to what follows the field. -/
theorem lt_or_mem_rest {start place : Nat} {sum : Option Nat} {t : Text} {f : Field}
    (h : readDigits start place sum t = .ok f) : ∀ u ∈ t, u.toNat < 0x80 ∨ u ∈ f.rest := by
  induction t generalizing place sum with
  | nil => cases h
  | cons u rest ih =>
    obtain ⟨g, sum', -, ⟨rest', ht, h⟩ | ⟨ht, -⟩⟩ := readDigits_cases h
    · obtain ⟨rfl, rfl⟩ := List.cons.inj ht
      exact List.forall_mem_cons.mpr ⟨Or.inl (lt_of_digitOf? (digitOf?_continuedUnit g)), ih h⟩
    · obtain ⟨rfl, rfl⟩ := List.cons.inj ht
      exact List.forall_mem_cons.mpr
        ⟨Or.inl (lt_of_digitOf? (digitOf?_lastUnit g)), fun v hv => Or.inr hv⟩

/-- A text that is read as fields to its end is ASCII. -/
theorem lt_of_readAll {start : Nat} {t : Text} (h : (readAll start t).error = none) :
    ∀ u ∈ t, u.toNat < 0x80 := by
  fun_induction readAll start t with
  | case1 => simp
  | case2 => cases h
  | case3 start t hne f hf others ih =>
    intro u hu
    rcases lt_or_mem_rest hf u hu with hu | hu
    · exact hu
    · exact ih h u hu

theorem lt_of_values {start : Nat} {t : Text} {values : List Number}
    (h : (readAll start t).values = .ok values) : ∀ u ∈ t, u.toNat < 0x80 :=
  lt_of_readAll (values_eq_ok_iff.mp h).1

end Vlq

namespace Segment

/-- Every unit of a text is a separator or a unit of a part. -/
theorem eq_or_mem_parts (separator : CodeUnit) (offset : Nat) (t : Text) :
    ∀ u ∈ t, u = separator ∨ ∃ part ∈ parts separator offset t, u ∈ part.2 := by
  induction t generalizing offset with
  | nil => simp
  | cons v rest ih =>
    have hrest := ih (offset + 1)
    intro u hu
    unfold parts
    by_cases hv : v = separator
    · rw [if_pos hv]
      rcases List.mem_cons.mp hu with rfl | hu
      · exact Or.inl hv
      · apply (hrest u hu).imp_right
        rintro ⟨part, hpart, hmem⟩
        exact ⟨part, List.mem_cons_of_mem _ hpart, hmem⟩
    · rw [if_neg hv]
      cases hparts : parts separator (offset + 1) rest with
      | nil =>
        rw [hparts] at hrest
        rcases List.mem_cons.mp hu with rfl | hu
        · exact Or.inr ⟨_, List.mem_cons_self, List.mem_cons_self⟩
        · apply (hrest u hu).imp_right
          rintro ⟨part, hpart, -⟩
          cases hpart
      | cons first others =>
        obtain ⟨start, units⟩ := first
        rw [hparts] at hrest
        rcases List.mem_cons.mp hu with rfl | hu
        · exact Or.inr ⟨_, List.mem_cons_self, List.mem_cons_self⟩
        · apply (hrest u hu).imp_right
          rintro ⟨part, hpart, hmem⟩
          rcases List.mem_cons.mp hpart with rfl | hpart
          · exact ⟨_, List.mem_cons_self, List.mem_cons_of_mem _ hmem⟩
          · exact ⟨part, List.mem_cons_of_mem _ hpart, hmem⟩

/-- Every unit of a mappings text is a semicolon, a comma or a unit of a segment. -/
theorem eq_or_mem_all (t : Text) :
    ∀ u ∈ t, u = Vlq.semicolon ∨ u = Vlq.comma ∨ ∃ segment ∈ all t, u ∈ segment.units := by
  intro u hu
  apply (eq_or_mem_parts Vlq.semicolon 0 t u hu).imp_right
  rintro ⟨⟨offset, units⟩, hline, hu⟩
  apply (eq_or_mem_parts Vlq.comma offset units u hu).imp_right
  rintro ⟨⟨start, part⟩, hpart, hmem⟩
  obtain ⟨line, hline⟩ := List.mem_iff_getElem?.mp hline
  refine ⟨⟨line, start, part⟩, ?_, hmem⟩
  refine List.mem_flatMap.mpr ⟨((offset, units), line), ?_, ?_⟩
  · exact List.mem_zipIdx_iff_getElem?.mpr hline
  · show _ ∈ ofLine line offset units
    unfold ofLine
    rw [if_neg (List.ne_nil_of_mem hu)]
    exact List.mem_map_of_mem hpart

end Segment

namespace MappingTable

namespace Running

variable {r s : Running} {f : Fields Number} {m : Mapping}

/-- Every running value is one that steps lead to. -/
def Reached (r : Running) : Prop := ∀ k, (r.get k).Reached

theorem reached_start : Reached {} := by
  intro k
  cases k <;> exact Number.reached_zero

theorem Reached.enter (h : r.Reached) (line : Nat) : (r.enter line).Reached := by
  intro k
  rw [get_enter]
  split
  · exact Number.reached_zero
  · exact h k

/-- Fields are steps from one running value to the next if the sums that they make are not negative. -/
theorem Reached.add (h : r.Reached) (hf : ∀ x ∈ f.toList, x.Step)
    (hsums : ∀ x ∈ ((r.add f).entry f).fields.toList, ¬ x < 0) : (r.add f).Reached := by
  intro k
  cases hk : f.get? k with
  | none =>
    rw [get_add, hk]
    exact h k
  | some x =>
    have hsum : (r.add f).get k ∈ ((r.add f).entry f).fields.toList :=
      Fields.mem_toList_iff.mpr ⟨k, by rw [get?_entry, hk, Option.map_some]⟩
    have hnot := hsums _ hsum
    rw [get_add, hk] at hnot ⊢
    exact (h k).add (hf x (Fields.mem_toList_iff.mpr ⟨k, hk⟩)) hnot

theorem Reached.entry (h : r.Reached) (f : Fields Number) :
    ∀ x ∈ (r.entry f).fields.toList, x.Reached := by
  intro x hx
  obtain ⟨k, hk⟩ := Fields.mem_toList_iff.mp hx
  rw [get?_entry] at hk
  obtain ⟨_, -, rfl⟩ := Option.map_eq_some_iff.mp hk
  exact h k

/-- A segment makes an entry of numbers that steps lead to. -/
theorem Reached.read {segment : Segment} (hr : r.Reached) (h : r.read segment = .ok (m, s)) :
    s.Reached ∧ m.line = (s.line : Number) ∧ ∀ x ∈ m.fields.toList, x.Reached := by
  unfold Running.read at h
  split at h
  · cases h
  · obtain ⟨values, hvalues, hstep⟩ := bind_eq_ok_iff.mp h
    obtain ⟨f, rfl⟩ := exists_fields_of_step hstep
    obtain ⟨rfl, rfl, hsums⟩ := step_eq_ok_iff.mp hstep
    have hs := (hr.enter segment.line).add (Vlq.step_of_values hvalues) hsums
    exact ⟨hs, rfl, hs.entry f⟩

end Running

theorem reached_of_decodeFrom {r s : Running} {segments : List Segment} {entries : MappingTable}
    (h : decodeFrom r segments = .ok (entries, s)) (hr : r.Reached) :
    ∀ m ∈ entries, (∃ line : Nat, m.line = (line : Number)) ∧ ∀ x ∈ m.fields.toList, x.Reached := by
  induction segments generalizing r entries with
  | nil =>
    obtain ⟨rfl, -⟩ := Prod.mk.inj (Except.ok.inj h)
    simp
  | cons segment rest ih =>
    obtain ⟨⟨m, r₁⟩, hread, h⟩ := bind_eq_ok_iff.mp h
    obtain ⟨⟨others, r₂⟩, hothers, h⟩ := bind_eq_ok_iff.mp h
    obtain ⟨rfl, rfl⟩ := Prod.mk.inj (Except.ok.inj h)
    obtain ⟨hreached, hline, hm⟩ := hr.read hread
    exact List.forall_mem_cons.mpr ⟨⟨⟨_, hline⟩, hm⟩, ih hothers hreached⟩

/-- The units of segments that are read are ASCII. -/
theorem lt_of_decodeFrom {r s : Running} {segments : List Segment} {entries : MappingTable}
    (h : decodeFrom r segments = .ok (entries, s)) :
    ∀ segment ∈ segments, ∀ u ∈ segment.units, u.toNat < 0x80 := by
  induction segments generalizing r entries with
  | nil => simp
  | cons segment rest ih =>
    obtain ⟨⟨m, r₁⟩, hread, h⟩ := bind_eq_ok_iff.mp h
    obtain ⟨⟨others, r₂⟩, hothers, h⟩ := bind_eq_ok_iff.mp h
    obtain ⟨-, rfl⟩ := Prod.mk.inj (Except.ok.inj h)
    refine List.forall_mem_cons.mpr ⟨?_, ih hothers⟩
    unfold Running.read at hread
    split at hread
    · cases hread
    · obtain ⟨fields, hfields, -⟩ := bind_eq_ok_iff.mp hread
      exact Vlq.lt_of_values hfields

/-- **A mappings text that can be decoded is ASCII.** -/
theorem isAscii_of_decode {t : Text} {table : MappingTable} (h : decode t = .ok table) :
    t.isAscii = true := by
  obtain ⟨⟨entries, s⟩, hentries, -⟩ := bind_eq_ok_iff.mp h
  rw [Text.isAscii_iff]
  intro u hu
  rcases Segment.eq_or_mem_all t u hu with rfl | rfl | ⟨segment, hsegment, hmem⟩
  · decide
  · decide
  · exact lt_of_decodeFrom hentries segment hsegment u hmem

/-- **Generated lines are naturals, and all other numbers are reached by steps.** -/
theorem reached_of_decode {t : Text} {table : MappingTable} (h : decode t = .ok table) :
    ∀ m ∈ table, (∃ line : Nat, m.line = (line : Number)) ∧ ∀ x ∈ m.fields.toList, x.Reached := by
  obtain ⟨⟨entries, s⟩, hentries, h⟩ := bind_eq_ok_iff.mp h
  rw [← Except.ok.inj h]
  intro m hm
  exact reached_of_decodeFrom hentries Running.reached_start m ((sort_perm entries).mem_iff.mp hm)

/-- Generated columns are reached by steps. -/
theorem decode_reached {t : Text} {table : MappingTable} (h : decode t = .ok table) :
    ∀ m ∈ table, (∃ line : Nat, m.line = (line : Number)) ∧ m.column.Reached := by
  intro m hm
  obtain ⟨hline, hreached⟩ := reached_of_decode h m hm
  exact ⟨hline, hreached m.column (Fields.mem_toList_iff.mpr ⟨.generatedColumn, rfl⟩)⟩

theorem placed_of_reached {m : Mapping} (hline : ∃ line : Nat, m.line = (line : Number))
    (hcolumn : m.column.Reached) (hvalue : m.column.isInteger = true) : m.Placed := by
  obtain ⟨line, hline⟩ := hline
  rcases hcolumn with hnan | ⟨column, -, hcolumn⟩
  · rw [hnan] at hvalue
    cases hvalue
  · exact ⟨by simp [Mapping.place, hline], by simp [Mapping.place, hcolumn]⟩

/-- A table whose generated columns are integers stands at places. -/
theorem decode_placed {t : Text} {table : MappingTable} (h : decode t = .ok table)
    (hcolumns : ∀ m ∈ table, m.column.isInteger = true) : table.Placed := fun m hm =>
  placed_of_reached (decode_reached h m hm).1 (decode_reached h m hm).2 (hcolumns m hm)

/-- A table whose generated columns are integers is in order. -/
theorem decode_sorted {t : Text} {table : MappingTable} (h : decode t = .ok table)
    (hcolumns : ∀ m ∈ table, m.column.isInteger = true) : table.Sorted := by
  have hplaced := decode_placed h hcolumns
  obtain ⟨⟨entries, s⟩, hentries, h⟩ := bind_eq_ok_iff.mp h
  rw [← Except.ok.inj h] at hplaced ⊢
  exact sort_sorted fun m hm => hplaced m ((sort_perm entries).mem_iff.mpr hm)

end MappingTable

end Provenance
