/-
# Running values

A segment adds its fields to the running values, and its entry is made of the running values of the
kinds that it carries.  Reading succeeds if the segments are fields and no number of an entry
becomes negative.

The main facts:

* `step_eq_ok_iff`, `read_eq_ok_iff`, `decodeFrom_eq_ok_iff` : what reading fields gives, and when;
* `exists_fields_of_step` : only one, four or five values make an entry;
* `exists_fields_of_read` : a segment that is read, and whose fields have values, consists of
  fields;
* `decode_text_eq_ok_iff` : what reading the text of some lines gives, and when.
-/
import Provenance.Proofs.Except
import Provenance.Proofs.Mapping.Grammar

namespace Provenance

open Vlq (Numeral)

namespace Mapping

/-- The numbers of an entry apart from its line, as the fields of a segment. -/
def fields (m : Mapping) : Fields Number where
  column := m.column
  origin := m.origin.map fun o => ⟨o.source, o.line, o.column, o.name⟩

end Mapping

namespace MappingTable

namespace Running

/-- The running values after the fields of a segment. -/
def add (r : Running) (f : Fields Number) : Running :=
  match f.origin with
  | none => { r with column := r.column + f.column }
  | some o =>
    { r with
      column := r.column + f.column
      source := r.source + o.source
      originLine := r.originLine + o.line
      originColumn := r.originColumn + o.column
      name := (o.name.map (r.name + ·)).getD r.name }

/-- The entry that running values make for the fields of a segment. -/
def entry (r : Running) (f : Fields Number) : Mapping where
  line := (r.line : Number)
  column := r.column
  origin := f.origin.map fun o =>
    ⟨r.source, r.originLine, r.originColumn, o.name.map fun _ => r.name⟩

/-- The entries of segments that are read one after the other. -/
def entries (r : Running) : List (Nat × Fields Number) → MappingTable
  | [] => []
  | s :: rest => ((r.enter s.1).add s.2).entry s.2 :: ((r.enter s.1).add s.2).entries rest

/-- The running value of a kind. -/
def get (r : Running) : MappingField → Number
  | .generatedColumn => r.column
  | .source => r.source
  | .originLine => r.originLine
  | .originColumn => r.originColumn
  | .name => r.name

/-- A new line makes the generated column start over. -/
theorem get_enter (r : Running) (line : Nat) (k : MappingField) :
    (r.enter line).get k = if k = .generatedColumn ∧ line ≠ r.line then 0 else r.get k := by
  unfold enter
  by_cases hline : line = r.line
  · rw [if_pos hline, if_neg fun h => h.2 hline]
  · rw [if_neg hline]
    cases k with
    | generatedColumn =>
      rw [if_pos ⟨rfl, hline⟩]
      rfl
    | _ =>
      rw [if_neg (by simp)]
      rfl

/-- The fields of a segment are added to the running values of their kinds. -/
theorem get_add (r : Running) (f : Fields Number) (k : MappingField) :
    (r.add f).get k = (f.get? k).elim (r.get k) (r.get k + ·) := by
  obtain ⟨c, _ | ⟨s, l, oc, _ | n⟩⟩ := f <;> cases k <;> rfl

/-- An entry is made of the running values of the kinds that its segment carries. -/
theorem get?_entry (r : Running) (f : Fields Number) (k : MappingField) :
    (r.entry f).fields.get? k = (f.get? k).map fun _ => r.get k := by
  obtain ⟨c, _ | ⟨s, l, oc, _ | n⟩⟩ := f <;> cases k <;> rfl

@[simp] theorem line_add (r : Running) (f : Fields Number) : (r.add f).line = r.line := by
  unfold add
  split <;> rfl

@[simp] theorem line_enter (r : Running) (line : Nat) : (r.enter line).line = line := by
  unfold enter
  split
  · rename_i h
    exact h.symm
  · rfl

end Running

/-! ## One segment -/

theorem check_eq_ok_iff {field : MappingField} {value : Number} {offset : Nat} {u : Unit} :
    check field value offset = .ok u ↔ ¬ value < 0 := by
  unfold check
  split
  · rename_i h
    exact ⟨fun hok => (nomatch hok), fun hnot => absurd h hnot⟩
  · rename_i h
    exact ⟨fun _ => h, fun _ => rfl⟩

variable {r s : Running} {offset : Nat} {m : Mapping}

theorem moveColumn_eq_ok_iff {column : Number} :
    r.moveColumn column offset = .ok s ↔
      ¬ r.column + column < 0 ∧ { r with column := r.column + column } = s := by
  simp only [Running.moveColumn, bind_eq_ok_iff, check_eq_ok_iff, Except.ok.injEq, exists_const]

theorem moveOrigin_eq_ok_iff {source line column : Number} :
    r.moveOrigin source line column offset = .ok s ↔
      (¬ r.source + source < 0 ∧ ¬ r.originLine + line < 0 ∧ ¬ r.originColumn + column < 0) ∧
        { r with
          source := r.source + source
          originLine := r.originLine + line
          originColumn := r.originColumn + column } = s := by
  simp only [Running.moveOrigin, bind_eq_ok_iff, check_eq_ok_iff, Except.ok.injEq, exists_const,
    and_assoc]

theorem moveName_eq_ok_iff {name : Number} :
    r.moveName name offset = .ok s ↔
      ¬ r.name + name < 0 ∧ { r with name := r.name + name } = s := by
  simp only [Running.moveName, bind_eq_ok_iff, check_eq_ok_iff, Except.ok.injEq, exists_const]

/-- The numbers of an entry are the sums of the running values and the fields. -/
theorem fields_entry_add (r : Running) (f : Fields Number) :
    ((r.add f).entry f).fields =
      ⟨r.column + f.column, f.origin.map fun o => ⟨r.source + o.source, r.originLine + o.line,
        r.originColumn + o.column, o.name.map (r.name + ·)⟩⟩ := by
  obtain ⟨c, _ | ⟨src, l, oc, _ | n⟩⟩ := f <;> rfl

/-- **What a segment's fields give.**  They are added, and the entry is made of the sums, if none of
its numbers is negative. -/
theorem step_eq_ok_iff {f : Fields Number} :
    r.step offset f.toList = .ok (m, s) ↔
      s = r.add f ∧ m = s.entry f ∧ ∀ x ∈ m.fields.toList, ¬ x < 0 := by
  obtain ⟨c, _ | ⟨src, l, oc, _ | n⟩⟩ := f
  · simp only [Fields.toList, Running.step, bind_eq_ok_iff, moveColumn_eq_ok_iff, Except.ok.injEq,
      Prod.mk.injEq]
    constructor
    · rintro ⟨_, ⟨hc, rfl⟩, rfl, rfl⟩
      exact ⟨rfl, rfl, by simpa [Mapping.fields] using hc⟩
    · rintro ⟨rfl, rfl, hm⟩
      simp only [fields_entry_add, Option.map_none, List.forall_mem_singleton] at hm
      exact ⟨_, ⟨hm, rfl⟩, rfl, rfl⟩
  · simp only [Fields.toList_mk_some, Option.toList_none, Running.step, bind_eq_ok_iff,
      moveColumn_eq_ok_iff, moveOrigin_eq_ok_iff, Except.ok.injEq, Prod.mk.injEq]
    constructor
    · rintro ⟨_, ⟨hc, rfl⟩, _, ⟨ho, rfl⟩, rfl, rfl⟩
      exact ⟨rfl, rfl, by simpa [Mapping.fields] using ⟨hc, ho⟩⟩
    · rintro ⟨rfl, rfl, hm⟩
      simp only [fields_entry_add, Option.map_some, Option.map_none, Fields.toList_mk_some,
        Option.toList_none, List.forall_mem_cons] at hm
      obtain ⟨hc, hs, hl, hoc, -⟩ := hm
      exact ⟨_, ⟨hc, rfl⟩, _, ⟨⟨hs, hl, hoc⟩, rfl⟩, rfl, rfl⟩
  · simp only [Fields.toList_mk_some, Option.toList_some, Running.step, bind_eq_ok_iff,
      moveColumn_eq_ok_iff, moveOrigin_eq_ok_iff, moveName_eq_ok_iff, Except.ok.injEq,
      Prod.mk.injEq]
    constructor
    · rintro ⟨_, ⟨hc, rfl⟩, _, ⟨ho, rfl⟩, _, ⟨hn, rfl⟩, rfl, rfl⟩
      exact ⟨rfl, rfl, by simpa [Mapping.fields] using ⟨hc, ho.1, ho.2.1, ho.2.2, hn⟩⟩
    · rintro ⟨rfl, rfl, hm⟩
      simp only [fields_entry_add, Option.map_some, Fields.toList_mk_some, Option.toList_some,
        List.forall_mem_cons] at hm
      obtain ⟨hc, hs, hl, hoc, hn, -⟩ := hm
      exact ⟨_, ⟨hc, rfl⟩, _, ⟨⟨hs, hl, hoc⟩, rfl⟩, _, ⟨hn, rfl⟩, rfl, rfl⟩

/-- Only one, four or five values make an entry. -/
theorem exists_fields_of_step {xs : List Number} (h : r.step offset xs = .ok (m, s)) :
    ∃ f : Fields Number, f.toList = xs := by
  unfold Running.step at h
  split at h
  · exact Fields.exists_toList_eq (Or.inl rfl)
  · exact Fields.exists_toList_eq (Or.inr (Or.inl rfl))
  · exact Fields.exists_toList_eq (Or.inr (Or.inr rfl))
  · cases h

/-- A field without a value leaves its entry with a number that has none. -/
theorem nan_mem_entry {f : Fields Number} (h : .nan ∈ f.toList) :
    .nan ∈ ((r.add f).entry f).fields.toList := by
  obtain ⟨k, hk⟩ := Fields.mem_toList_iff.mp h
  apply Fields.mem_toList_iff.mpr
  refine ⟨k, ?_⟩
  rw [Running.get?_entry, Running.get_add, hk]
  exact congrArg some (Number.add_nan _)

/-- **Reading a segment that consists of short fields.** -/
theorem read_eq_ok_iff {segment : Segment} {f : Fields Numeral} (hf : ∀ n ∈ f.toList, n.Short)
    (htext : segment.units = f.text) :
    r.read segment = .ok (m, s) ↔
      s = (r.enter segment.line).add (f.map fun n => (n.value : Number)) ∧
        m = s.entry (f.map fun n => (n.value : Number)) ∧ ∀ x ∈ m.fields.toList, ¬ x < 0 := by
  have hvalues : (Vlq.readAll segment.offset segment.units).values =
      .ok (f.map fun n => (n.value : Number)).toList := by
    rw [htext, Fields.toList_map]
    exact Vlq.values_readAll_text hf segment.offset
  rw [Running.read, if_neg (by rw [htext]; exact f.text_ne_nil), hvalues, ← step_eq_ok_iff]
  exact Iff.rfl

/-- A segment that is read, and whose fields all have values, consists of short fields. -/
theorem exists_fields_of_read {segment : Segment} (h : r.read segment = .ok (m, s))
    (hvalues : ∀ x ∈ (Vlq.readAll segment.offset segment.units).fields, x.value ≠ .nan) :
    ∃ f : Fields Numeral, (∀ n ∈ f.toList, n.Short) ∧ f.text = segment.units := by
  unfold Running.read at h
  split at h
  · cases h
  · obtain ⟨xs, hxs, hstep⟩ := bind_eq_ok_iff.mp h
    obtain ⟨herror, hmap⟩ := Vlq.values_eq_ok_iff.mp hxs
    obtain ⟨ns, hns, htext⟩ := Vlq.exists_numerals_of_readAll herror hvalues
    obtain ⟨g, hg⟩ := exists_fields_of_step hstep
    -- there are as many numerals as values, so they are the fields of a segment, too
    have hlength : ns.length = g.toList.length := by
      have hnumbers := Vlq.values_readAll_text hns segment.offset
      rw [← htext, hxs] at hnumbers
      rw [hg, Except.ok.inj hnumbers, List.length_map]
    obtain ⟨f, rfl⟩ : ∃ f : Fields Numeral, f.toList = ns :=
      Fields.exists_toList_eq (by rw [hlength]; exact g.length_toList)
    exact ⟨f, hns, htext.symm⟩

/-- The fields of an entry without missing numbers have values. -/
theorem value_ne_nan_of_read {segment : Segment} (h : r.read segment = .ok (m, s))
    (hm : .nan ∉ m.fields.toList) :
    ∀ x ∈ (Vlq.readAll segment.offset segment.units).fields, x.value ≠ .nan := by
  intro x hx hnan
  unfold Running.read at h
  split at h
  · cases h
  · obtain ⟨xs, hxs, hstep⟩ := bind_eq_ok_iff.mp h
    obtain ⟨-, rfl⟩ := Vlq.values_eq_ok_iff.mp hxs
    obtain ⟨f, hf⟩ := exists_fields_of_step hstep
    rw [← hf] at hstep
    obtain ⟨rfl, rfl, -⟩ := step_eq_ok_iff.mp hstep
    apply hm
    apply nan_mem_entry
    rw [hf, ← hnan]
    exact List.mem_map_of_mem hx

/-! ## All segments -/

/-- Every segment that is read is read into one of the entries. -/
theorem exists_read_of_decodeFrom {segments : List Segment} {entries : MappingTable}
    (h : decodeFrom r segments = .ok (entries, s)) :
    ∀ segment ∈ segments, ∃ r m s, Running.read r segment = .ok (m, s) ∧ m ∈ entries := by
  induction segments generalizing r entries with
  | nil => simp
  | cons segment rest ih =>
    obtain ⟨⟨m, r₁⟩, hread, h⟩ := bind_eq_ok_iff.mp h
    obtain ⟨⟨others, r₂⟩, hothers, h⟩ := bind_eq_ok_iff.mp h
    obtain ⟨rfl, rfl⟩ := Prod.mk.inj (Except.ok.inj h)
    refine List.forall_mem_cons.mpr ⟨⟨r, m, r₁, hread, List.mem_cons_self⟩, ?_⟩
    intro x hx
    obtain ⟨r', m', s', hx, hmem⟩ := ih hothers x hx
    exact ⟨r', m', s', hx, List.mem_cons_of_mem m hmem⟩

/-- **Reading segments that consist of short fields.** -/
theorem decodeFrom_eq_ok_iff {segments : List Segment} {xs : List (Nat × Fields Numeral)}
    (hshort : ∀ x ∈ xs, ∀ n ∈ x.2.toList, n.Short)
    (hsegments : segments.map (fun s => (s.line, s.units)) = xs.map fun x => (x.1, x.2.text))
    {es : MappingTable} :
    (∃ s, decodeFrom r segments = .ok (es, s)) ↔
      es = r.entries (xs.map fun x => (x.1, x.2.map fun n => (n.value : Number))) ∧
        ∀ m ∈ es, ∀ x ∈ m.fields.toList, ¬ x < 0 := by
  induction xs generalizing r segments es with
  | nil =>
    obtain rfl := List.map_eq_nil_iff.mp hsegments
    constructor
    · rintro ⟨s, h⟩
      obtain ⟨rfl, -⟩ := Prod.mk.inj (Except.ok.inj h)
      exact ⟨rfl, by simp⟩
    · rintro ⟨rfl, -⟩
      exact ⟨r, rfl⟩
  | cons x xs ih =>
    obtain ⟨segment, rest, rfl, hfirst, hrest⟩ := List.map_eq_cons_iff.mp hsegments
    obtain ⟨hline, hunits⟩ := Prod.mk.inj hfirst
    obtain ⟨hx, hxs⟩ := List.forall_mem_cons.mp hshort
    simp only [decodeFrom, bind_eq_ok_iff, Prod.exists, read_eq_ok_iff hx hunits, hline]
    constructor
    · rintro ⟨s, m, r₁, ⟨rfl, rfl, hm⟩, others, r₂, hothers, h⟩
      obtain ⟨rfl, rfl⟩ := Prod.mk.inj (Except.ok.inj h)
      obtain ⟨rfl, hall⟩ := (ih hxs hrest).mp ⟨r₂, hothers⟩
      exact ⟨rfl, List.forall_mem_cons.mpr ⟨hm, hall⟩⟩
    · rintro ⟨rfl, hall⟩
      obtain ⟨hm, hall⟩ := List.forall_mem_cons.mp hall
      obtain ⟨r₂, hothers⟩ := (ih hxs hrest).mpr ⟨rfl, hall⟩
      exact ⟨r₂, _, _, ⟨rfl, rfl, hm⟩, _, r₂, hothers, rfl⟩

end MappingTable

namespace Lines

/-- The numbers that the fields of lines stand for. -/
def numbers (lines : List (List (Fields Numeral))) : List (Nat × Fields Number) :=
  (segments lines).map fun s => (s.1, s.2.map fun n => (n.value : Number))

end Lines

namespace MappingTable

/-! ## Mappings texts -/

/-- **What is decoded from the text of lines.**  The entries of the lines, put in order, if none of
their numbers is negative. -/
theorem decode_text_eq_ok_iff {lines : List (List (Fields Numeral))}
    (hshort : ∀ line ∈ lines, ∀ f ∈ line, ∀ n ∈ f.toList, n.Short) {table : MappingTable} :
    decode (Lines.text lines) = .ok table ↔
      (∀ m ∈ Running.entries {} (Lines.numbers lines), ∀ x ∈ m.fields.toList, ¬ x < 0) ∧
        sort (Running.entries {} (Lines.numbers lines)) = table := by
  have hsegments : ∀ s ∈ Lines.segments lines, ∀ n ∈ s.2.toList, n.Short := by
    intro s hs
    obtain ⟨line, hline, hf⟩ := Lines.exists_mem_of_mem_segments hs
    exact hshort line hline s.2 hf
  have hread : ∀ es : MappingTable,
      (∃ s, decodeFrom {} (Segment.all (Lines.text lines)) = .ok (es, s)) ↔
        es = Running.entries {} (Lines.numbers lines) ∧
          ∀ m ∈ es, ∀ x ∈ m.fields.toList, ¬ x < 0 :=
    fun es => decodeFrom_eq_ok_iff hsegments (Lines.map_units_all_text lines)
  constructor
  · intro h
    obtain ⟨⟨es, s⟩, hes, h⟩ := bind_eq_ok_iff.mp h
    obtain ⟨rfl, hall⟩ := (hread es).mp ⟨s, hes⟩
    exact ⟨hall, Except.ok.inj h⟩
  · rintro ⟨hall, rfl⟩
    obtain ⟨s, hs⟩ := (hread _).mpr ⟨rfl, hall⟩
    exact bind_eq_ok_iff.mpr ⟨_, hs, rfl⟩

/-- A text that is decoded, and whose fields all have values, is that of lines of short fields. -/
theorem exists_lines_of_decode {t : Text} {table : MappingTable} (h : decode t = .ok table)
    (hvalues : ∀ segment ∈ Segment.all t,
      ∀ x ∈ (Vlq.readAll segment.offset segment.units).fields, x.value ≠ .nan) :
    ∃ lines : List (List (Fields Numeral)),
      (∀ line ∈ lines, ∀ f ∈ line, ∀ n ∈ f.toList, n.Short) ∧ t = Lines.text lines := by
  obtain ⟨⟨es, s⟩, hes, -⟩ := bind_eq_ok_iff.mp h
  apply Lines.exists_lines_of_all
  intro segment hsegment
  obtain ⟨r, m, s', hread, -⟩ := exists_read_of_decodeFrom hes segment hsegment
  exact exists_fields_of_read hread (hvalues segment hsegment)

end MappingTable

end Provenance
