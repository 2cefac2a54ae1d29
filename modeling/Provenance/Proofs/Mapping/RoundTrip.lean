/-
# Round trips

Reading what has been written, the running values keep in step with the cursor of the writer.  An
entry is read back if the steps to its values fit into fields; then the reader stays in step.

The main facts:

* `entries_written_iff` : the entries that are written are read back if and only if all steps fit;
* `decode_encode` : encoding and decoding a table of moderate naturals puts it in order;
* `decode_encode_decode` : a decoded table is decoded again from its text if and only if its steps
  fit.
-/
import Provenance.Proofs.Mapping.Accepted
import Provenance.Proofs.Mapping.Steps

namespace Provenance

open Vlq (Numeral maxMagnitude)
open Number (Near)

namespace Mapping

/-- Entries are the same if they are on one line and have the same numbers of all kinds. -/
theorem eq_iff {m m' : Mapping} :
    m = m' ↔ m.line = m'.line ∧ ∀ k, m.fields.get? k = m'.fields.get? k := by
  constructor
  · rintro rfl
    exact ⟨rfl, fun _ => rfl⟩
  · rintro ⟨hline, hfields⟩
    obtain ⟨line, column, origin⟩ := m
    obtain ⟨line', column', origin'⟩ := m'
    obtain rfl : line = line' := hline
    obtain rfl : column = column' := Option.some.inj (hfields .generatedColumn)
    have hsource := hfields .source
    cases origin with
    | none =>
      cases origin' with
      | none => rfl
      | some o' => cases hsource
    | some o =>
      cases origin' with
      | none => cases hsource
      | some o' =>
        obtain ⟨s, l, oc, n⟩ := o
        obtain ⟨s', l', oc', n'⟩ := o'
        obtain rfl : s = s' := Option.some.inj hsource
        obtain rfl : l = l' := Option.some.inj (hfields .originLine)
        obtain rfl : oc = oc' := Option.some.inj (hfields .originColumn)
        obtain rfl : n = n' := hfields .name
        rfl

/-- The numbers of an entry apart from its line are settled. -/
def Settled (m : Mapping) : Prop := ∀ x ∈ m.fields.toList, x.Settled

theorem Settled.exists_field {m : Mapping} (h : m.Settled) (hm : m.Natural) {k : MappingField}
    {x : Number} (hx : m.fields.get? k = some x) :
    ∃ n : Nat, Number.Settled (n : Number) ∧ x = (n : Number) := by
  obtain ⟨n, rfl⟩ := hm.exists_field hx
  exact ⟨n, h _ (Fields.mem_toList_iff.mpr ⟨k, hx⟩), rfl⟩

end Mapping

namespace MappingTable

variable {table : MappingTable} {m : Mapping} {r : Running} {c : Cursor}

/-! ## Reader and writer in step -/

/-- The fields that are read back of an entry. -/
def Cursor.recovered (c : Cursor) (m : Mapping) : Fields Number :=
  ((c.deltas m).map Numeral.ofNumber).map fun n => (n.value : Number)

theorem Cursor.get?_recovered (c : Cursor) (m : Mapping) (k : MappingField) :
    (c.recovered m).get? k = (m.fields.get? k).map fun x =>
      ((Numeral.ofNumber (delta x (c.get k))).value : Number) := by
  rw [recovered, Fields.get?_map, Fields.get?_map, get?_deltas, Option.map_map, Option.map_map]
  rfl

namespace Running

/-- The running values are those of the writer's cursor, which are settled naturals. -/
structure InStep (r : Running) (c : Cursor) : Prop where
  line : c.line = (r.line : Number)
  get : ∀ k, r.get k = c.get k
  settled : ∀ k, ∃ n : Nat, Number.Settled (n : Number) ∧ c.get k = (n : Number)

theorem inStep_start : InStep {} {} where
  line := rfl
  get k := by cases k <;> rfl
  settled k := ⟨0, Number.settled_of_le (Nat.zero_le _), by cases k <;> rfl⟩

theorem InStep.enter (h : r.InStep c) (line : Nat) :
    (r.enter line).InStep (c.enter (line : Number)) where
  line := by rw [Cursor.line_enter, line_enter]
  get k := by
    rw [get_enter, Cursor.get_enter, h.line, h.get k]
    simp only [ne_eq, Number.natCast_inj]
  settled k := by
    rw [Cursor.get_enter]
    split
    · exact ⟨0, Number.settled_of_le (Nat.zero_le _), rfl⟩
    · exact h.settled k

/-- **An entry is read back if and only if the steps to its values fit.** -/
theorem InStep.entry_eq_iff (h : r.InStep c) (hm : m.Natural) (hsettled : m.Settled)
    (hline : m.line = (r.line : Number)) :
    (r.add (c.recovered m)).entry (c.recovered m) = m ↔
      ∀ k x, m.fields.get? k = some x → Near (c.get k) x := by
  have hget : ∀ k, ((r.add (c.recovered m)).entry (c.recovered m)).fields.get? k =
      (m.fields.get? k).map fun x =>
        c.get k + ((Numeral.ofNumber (delta x (c.get k))).value : Number) := by
    intro k
    rw [get?_entry, get_add, Cursor.get?_recovered, h.get k, Option.map_map]
    cases m.fields.get? k <;> rfl
  have hentry : ((r.add (c.recovered m)).entry (c.recovered m)).line = m.line := by
    rw [hline]
    exact congrArg (fun n : Nat => (n : Number)) (line_add r _)
  rw [Mapping.eq_iff]
  constructor
  · rintro ⟨-, hfields⟩ k x hx
    have hk := hfields k
    rw [hget, hx] at hk
    obtain ⟨a, hsa, ha⟩ := h.settled k
    obtain ⟨b, hsb, rfl⟩ := hsettled.exists_field hm hx
    rw [ha] at hk ⊢
    exact (Number.near_iff hsa hsb).mpr (Option.some.inj hk)
  · intro hnear
    refine ⟨hentry, fun k => ?_⟩
    rw [hget]
    cases hx : m.fields.get? k with
    | none => rfl
    | some x =>
      obtain ⟨a, hsa, ha⟩ := h.settled k
      obtain ⟨b, hsb, rfl⟩ := hsettled.exists_field hm hx
      have hk := hnear k _ hx
      rw [ha] at hk ⊢
      exact congrArg some ((Number.near_iff hsa hsb).mp hk)

/-- When an entry is read back, the reader stays in step. -/
theorem InStep.after (h : r.InStep c) (hm : m.Natural) (hsettled : m.Settled)
    (hentry : (r.add (c.recovered m)).entry (c.recovered m) = m) :
    (r.add (c.recovered m)).InStep (c.after m) where
  line := by rw [Cursor.line_after, line_add, h.line]
  get k := by
    have hk := congrArg (fun m : Mapping => m.fields.get? k) hentry
    simp only [get?_entry, Cursor.get?_recovered, Option.map_map] at hk
    rw [Cursor.get_after]
    cases hx : m.fields.get? k with
    | none => rw [get_add, Cursor.get?_recovered, hx, Option.map_none, Option.elim_none, h.get k,
        Option.getD_none]
    | some x =>
      rw [hx] at hk
      exact Option.some.inj hk
  settled k := by
    rw [Cursor.get_after]
    cases hx : m.fields.get? k with
    | none => exact h.settled k
    | some x => exact hsettled.exists_field hm hx

/-- **The entries that are written are read back if and only if all steps fit.** -/
theorem entries_written_iff (h : r.InStep c) (hnatural : ∀ m ∈ table, m.Natural)
    (hsettled : ∀ m ∈ table, m.Settled)
    (hlines : (r.line :: table.map fun m => m.place.line).IsChain (· ≤ ·)) :
    r.entries ((c.written table).map fun s => (s.1, s.2.map fun n => (n.value : Number))) = table ↔
      c.Reaches table := by
  induction table generalizing r c with
  | nil => exact iff_of_true rfl c.reaches_nil
  | cons m rest ih =>
    obtain ⟨hm, hrest⟩ := List.forall_mem_cons.mp hnatural
    obtain ⟨hmsettled, hrestsettled⟩ := List.forall_mem_cons.mp hsettled
    rw [List.map_cons, List.isChain_cons_cons] at hlines
    have hlater : ∀ m' ∈ rest, m.place.line ≤ m'.place.line := by
      intro m' hm'
      exact List.rel_of_pairwise_cons (List.isChain_iff_pairwise.mp hlines.2)
        (List.mem_map_of_mem hm')
    have henter := h.enter m.place.line
    rw [← hm.placed.line] at henter
    have hline : m.line = ((r.enter m.place.line).line : Number) := by
      rw [line_enter, hm.placed.line]
    rw [Cursor.reaches_cons h.line hm hrest hlines.1 hlater, ← henter.entry_eq_iff hm hmsettled hline]
    show _ :: _ = _ ↔ _
    rw [List.cons.injEq]
    refine and_congr_right fun hentry => ?_
    refine ih (henter.after hm hmsettled hentry) hrest hrestsettled ?_
    rw [line_add, line_enter]
    exact hlines.2

end Running

/-! ## The order of what is read back -/

/-- An entry does not stand before the one it follows if its line is later, or if it is on the same
line and its generated column moves on. -/
theorem Running.not_precedes_entry (hr : r.column.Settled) {f : Fields Number} (g : Fields Number)
    {line : Nat} {i : Int} (hcolumn : f.column = (i : Number)) (hi : i.natAbs < 2 ^ 31)
    (h : r.line < line ∨ r.line = line ∧ 0 ≤ i) :
    (((r.enter line).add f).entry f).precedes (r.entry g) = false := by
  have hline : (((r.enter line).add f).entry f).line = (line : Number) := by
    show ((_ : Nat) : Number) = _
    rw [line_add, line_enter]
  rw [Mapping.precedes, hline, show (r.entry g).line = (r.line : Number) from rfl,
    Bool.or_eq_false_iff, Bool.and_eq_false_iff]
  simp only [Number.natCast_lt, decide_eq_false_iff_not]
  rcases h with hlt | ⟨rfl, hnonneg⟩
  · exact ⟨by omega, Or.inl (by simpa using hlt)⟩
  · refine ⟨by omega, Or.inr ?_⟩
    have hsum : (r.add f).column = r.column + (i : Number) := by
      rw [← hcolumn]
      exact get_add r f .generatedColumn
    rw [enter, if_pos rfl]
    show ¬ (r.add f).column < r.column
    rw [hsum]
    exact hr.not_add_lt hi hnonneg

/-- A new line starts at column 0. -/
theorem Running.settled_column_enter (hr : r.column.Settled) (line : Nat) :
    (r.enter line).column.Settled := by
  unfold enter
  split
  · exact hr
  · exact Number.settled_of_le (n := 0) (Nat.zero_le _)

/-- The generated column of a segment that is on the line of the one before it is a step forward. -/
def StepsOn (s s' : Nat × Fields Int) : Prop := s.1 < s'.1 ∨ s.1 = s'.1 ∧ 0 ≤ s'.2.column

/-- Entries are read in order if on each line no generated column steps back. -/
theorem Running.inOrder_entries {xs : List (Nat × Fields Int)} (hr : r.column.Settled)
    (hsteps : ∀ s ∈ xs, s.2.column.natAbs < 2 ^ 31) (h : xs.IsChain StepsOn) :
    (r.entries (xs.map fun s => (s.1, s.2.map fun i : Int => (i : Number)))).inOrder = true := by
  induction xs generalizing r with
  | nil => rfl
  | cons s rest ih =>
    obtain ⟨hs, hrest⟩ := List.forall_mem_cons.mp hsteps
    have hnext : (((r.enter s.1).add (s.2.map fun i : Int => (i : Number))).column).Settled := by
      have hcolumn : ((r.enter s.1).add (s.2.map fun i : Int => (i : Number))).column =
          (r.enter s.1).column + (s.2.column : Number) := get_add _ _ .generatedColumn
      rw [hcolumn]
      exact (settled_column_enter hr s.1).add_step hs
    cases rest with
    | nil => rfl
    | cons s' rest =>
      obtain ⟨hstep, hchain⟩ := List.isChain_cons_cons.mp h
      have ih := ih hnext hrest hchain
      rw [List.map_cons, List.map_cons, entries, entries, inOrder,
        not_precedes_entry hnext _ rfl (hrest s' List.mem_cons_self)
          (by rw [line_add, line_enter]; exact hstep)]
      exact ih

/-- The generated columns of a table in order are written as steps that do not go back. -/
theorem isChain_written (hnatural : ∀ m ∈ table, m.Natural) (hsorted : table.Sorted) (c : Cursor) :
    ((c.written table).map fun s => (s.1, s.2.map Numeral.value)).IsChain StepsOn := by
  induction table generalizing c with
  | nil => exact List.IsChain.nil
  | cons m rest ih =>
    cases rest with
    | nil => exact List.IsChain.singleton _
    | cons m' rest =>
      obtain ⟨hm, hrest⟩ := List.forall_mem_cons.mp hnatural
      have hm' := hrest m' List.mem_cons_self
      have hle := Text.Position.le_iff.mp (List.rel_of_pairwise_cons hsorted List.mem_cons_self)
      rw [Cursor.written, Cursor.written, List.map_cons, List.map_cons, List.isChain_cons_cons]
      refine ⟨?_, ih hrest hsorted.of_cons _⟩
      rcases hle with hlt | ⟨hline, hcolumn⟩
      · exact Or.inl hlt
      -- on one line the step is that between the two columns
      · have henter : ((c.enter m.line).after m).enter m'.line = (c.enter m.line).after m := by
          rw [Cursor.enter, if_pos]
          rw [Cursor.line_after, Cursor.line_enter, hm.placed.line, hm'.placed.line, hline]
        have hbefore : ((c.enter m.line).after m).column = m.column :=
          Cursor.get_after (c.enter m.line) m .generatedColumn
        refine Or.inr ⟨hline, ?_⟩
        rw [henter]
        apply Numeral.value_ofNumber_nonneg
        show ¬ m'.column - ((c.enter m.line).after m).column < 0
        rw [hbefore, hm.placed.column, hm'.placed.column, Number.natCast_sub_natCast hcolumn,
          ← Number.intCast_natCast, Number.ofNat_eq_natCast, Number.rounded_intCast_lt_zero]
        omega

/-! ## Encoding and decoding -/

variable {lines : List (List (Fields Numeral))} {t : Text}

/-- The entries that are read from the lines of a table. -/
theorem entries_numbers_iff (hsegments : Lines.segments lines = Cursor.written {} table)
    (hnatural : ∀ m ∈ table, m.Natural) (hsettled : ∀ m ∈ table, m.Settled)
    (hlines : table.Ascending) :
    Running.entries {} (Lines.numbers lines) = table ↔ table.StepsFit := by
  rw [Lines.numbers, hsegments, stepsFit_iff]
  exact Running.entries_written_iff Running.inStep_start hnatural hsettled
    ((ascending_iff hnatural).mp hlines)

theorem short_of_written (hsegments : Lines.segments lines = Cursor.written {} table) :
    ∀ line ∈ lines, ∀ f ∈ line, ∀ n ∈ f.toList, n.Short := by
  intro line hline f hf
  obtain ⟨number, hmem⟩ := Lines.exists_mem_segments hline hf
  rw [hsegments] at hmem
  exact Cursor.short_of_mem_written hmem

/-- Values of 31 bits are kept by every step. -/
theorem settled_of_le (hnatural : ∀ m ∈ table, m.Natural)
    (hle : ∀ m ∈ table, ∀ x ∈ m.fields.toList, x ≤ (0x7FFFFFFF : Number)) :
    ∀ m ∈ table, m.Settled := by
  intro m hm x hx
  obtain ⟨n, rfl⟩ := hnatural m hm x (List.mem_cons_of_mem _ hx)
  exact Number.settled_of_le (Nat.le_trans (Number.natCast_le.mp (hle m hm _ hx)) (by decide))

/-- A table whose steps fit is read from its lines, and put in order. -/
theorem decode_text_of_stepsFit (hsegments : Lines.segments lines = Cursor.written {} table)
    (hnatural : ∀ m ∈ table, m.Natural) (hsettled : ∀ m ∈ table, m.Settled)
    (hlines : table.Ascending) (hsteps : table.StepsFit) :
    decode (Lines.text lines) = .ok (sort table) := by
  rw [decode_text_eq_ok_iff (short_of_written hsegments),
    (entries_numbers_iff hsegments hnatural hsettled hlines).mpr hsteps]
  refine ⟨fun m hm x hx => ?_, rfl⟩
  obtain ⟨n, rfl⟩ := hnatural m hm x (List.mem_cons_of_mem _ hx)
  rw [Number.ofNat_eq_natCast, Number.natCast_lt]
  exact Nat.not_lt_zero n

/-- A table in order is read from its lines only if its steps fit. -/
theorem stepsFit_of_decode_text (hsegments : Lines.segments lines = Cursor.written {} table)
    (hnatural : ∀ m ∈ table, m.Natural) (hsettled : ∀ m ∈ table, m.Settled)
    (hlines : table.Ascending) (hsorted : table.Sorted)
    (h : decode (Lines.text lines) = .ok table) : table.StepsFit := by
  have horder : (Running.entries {} (Lines.numbers lines)).inOrder = true := by
    have hnumbers : Lines.numbers lines = ((Cursor.written {} table).map fun s =>
        (s.1, s.2.map Numeral.value)).map fun s => (s.1, s.2.map fun i : Int => (i : Number)) := by
      rw [Lines.numbers, hsegments, List.map_map]
      simp only [Function.comp_def, Fields.map_map]
    rw [hnumbers]
    refine Running.inOrder_entries (Number.settled_of_le (n := 0) (Nat.zero_le _)) (fun s hs => ?_)
      (isChain_written hnatural hsorted {})
    obtain ⟨own, -, rfl⟩ := List.mem_map.mp hs
    exact Nat.lt_succ_of_le own.2.column.natAbs_value_le
  obtain ⟨-, hsort⟩ := (decode_text_eq_ok_iff (short_of_written hsegments)).mp h
  rw [sort_of_inOrder horder] at hsort
  exact (entries_numbers_iff hsegments hnatural hsettled hlines).mp hsort

/-- **Decoding undoes encoding.**  A table of naturals of 31 bits, no entry of which is on an
earlier line than the one before it, has a text and is encoded unless that is too long; what is
decoded from the text is the table put in order.  A table that steps back is not encoded. -/
theorem decode_encode (table : MappingTable) :
    (table.Ascending → (∀ m ∈ table, m.Natural) →
      (∀ m ∈ table, ∀ x ∈ m.fields.toList, x ≤ (0x7FFFFFFF : Number)) →
        ∃ t sorted, table.HasText t ∧
          encode table = (if t.length ≤ Text.maxLength then .ok t else .error .textTooLong) ∧
          decode t = .ok sorted ∧ StablySorted table sorted ∧
          (table.inOrder = true → sorted = table)) ∧
    (¬ table.Ascending → ∃ e, encode table = .error e) := by
  refine ⟨fun hlines hnatural hle => ?_, fun hlines => ?_⟩
  · obtain ⟨lines, ht, hsegments⟩ := exists_hasText hnatural hlines
    have hsteps := stepsFit_of_le hnatural hle
    exact ⟨_, sort table, ht, ht.encode_eq,
      decode_text_of_stepsFit hsegments hnatural (settled_of_le hnatural hle) hlines hsteps,
      stablySorted_sort (placed_of_natural hnatural), sort_of_inOrder⟩
  · cases h : encode table with
    | error e => exact ⟨e, rfl⟩
    | ok t => exact absurd (ascending_of_encode h) hlines

/-- A table with a name, an entry without an origin and an empty line is decoded from its text. -/
theorem decode_encode_empty_line :
    ∃ t,
      encode [⟨0, 3, some ⟨0, 1, 2, some 0⟩⟩, ⟨0, 7, none⟩,
        ⟨2, 0, some ⟨1, 0, 2147483647, none⟩⟩] = .ok t ∧
      decode t = .ok [⟨0, 3, some ⟨0, 1, 2, some 0⟩⟩, ⟨0, 7, none⟩,
        ⟨2, 0, some ⟨1, 0, 2147483647, none⟩⟩] := by
  obtain ⟨t, sorted, -, hencode, hdecode, -, hself⟩ := (decode_encode
    [⟨0, 3, some ⟨0, 1, 2, some 0⟩⟩, ⟨0, 7, none⟩, ⟨2, 0, some ⟨1, 0, 2147483647, none⟩⟩]).1
    (by decide) (by decide) (by decide)
  have hwritten : encode [⟨0, 3, some ⟨0, 1, 2, some 0⟩⟩, ⟨0, 7, none⟩,
      ⟨2, 0, some ⟨1, 0, 2147483647, none⟩⟩] = .ok "GACEA,I;;ACD6/////D" := by decide +kernel
  rw [hwritten] at hencode ⊢
  split at hencode
  · exact ⟨t, hencode, hself (by decide) ▸ hdecode⟩
  · cases hencode

/-! ## Decoding, encoding and decoding -/

/-- The entries of a table in order are in the order of their lines. -/
theorem Sorted.ascending (hnatural : ∀ m ∈ table, m.Natural) (h : table.Sorted) :
    table.Ascending := by
  rw [ascending_iff hnatural]
  refine List.Pairwise.isChain (List.pairwise_cons.mpr ⟨fun n _ => Nat.zero_le n, ?_⟩)
  refine List.pairwise_map.mpr (h.imp fun {a b} hab => ?_)
  have hab := Text.Position.le_iff.mp hab
  omega

/-- **When a decoded table is decoded again from its text.**  A table that has been decoded, from a
text without too long runs of continued digits, has a text and is encoded unless that is too long;
what is decoded from the text is the table if and only if all its steps fit. -/
theorem decode_encode_decode (hruns : Vlq.RunsWithin 204 t) (h : decode t = .ok table) :
    ∃ t', table.HasText t' ∧
      encode table = (if t'.length ≤ Text.maxLength then .ok t' else .error .textTooLong) ∧
      (decode t' = .ok table ↔ table.StepsFit) := by
  have hnatural := natural_of_decode hruns h
  have hsorted := sorted_of_decode h hnatural
  have hsettled : ∀ m ∈ table, m.Settled := by
    intro m hm x hx
    obtain ⟨n, rfl⟩ := hnatural m hm x (List.mem_cons_of_mem _ hx)
    exact ((reached_of_decode h m hm).2 _ hx).settled
  have hlines := hsorted.ascending hnatural
  obtain ⟨lines, ht, hsegments⟩ := exists_hasText hnatural hlines
  have hself := stepsFit_of_decode_text hsegments hnatural hsettled hlines hsorted
  refine ⟨_, ht, ht.encode_eq, hself, fun hsteps => ?_⟩
  rw [decode_text_of_stepsFit hsegments hnatural hsettled hlines hsteps,
    sort_of_inOrder ((inOrder_iff_sorted (placed_of_natural hnatural)).mpr hsorted)]

/-- The second of two original lines is read as a step down from the first one; put in order, the
table starts with a step of 32 bits, of which the encoder writes 31. -/
theorem decode_encode_decode_swapped :
    decode "CA+/////DA,DA+/////DA" =
        .ok [⟨0, 0, some ⟨0, 4294967294, 0, none⟩⟩, ⟨0, 1, some ⟨0, 2147483647, 0, none⟩⟩] ∧
      encode [⟨0, 0, some ⟨0, 4294967294, 0, none⟩⟩, ⟨0, 1, some ⟨0, 2147483647, 0, none⟩⟩] =
        .ok "AA8/////DA,CA//////DA" ∧
      decode "AA8/////DA,CA//////DA" ≠
        .ok [⟨0, 0, some ⟨0, 4294967294, 0, none⟩⟩, ⟨0, 1, some ⟨0, 2147483647, 0, none⟩⟩] := by
  have hdecode : decode "CA+/////DA,DA+/////DA" =
      .ok [⟨0, 0, some ⟨0, 4294967294, 0, none⟩⟩, ⟨0, 1, some ⟨0, 2147483647, 0, none⟩⟩] := by
    have hread : (decodeFrom {} (Segment.all "CA+/////DA,DA+/////DA")).map Prod.fst =
        .ok [⟨0, 1, some ⟨0, 2147483647, 0, none⟩⟩, ⟨0, 0, some ⟨0, 4294967294, 0, none⟩⟩] := by
      decide +kernel
    obtain ⟨⟨es, s⟩, hes, rfl⟩ := map_eq_ok_iff.mp hread
    exact bind_eq_ok_iff.mpr ⟨_, hes, congrArg Except.ok (sort_pair (by decide))⟩
  have hencode : encode [⟨0, 0, some ⟨0, 4294967294, 0, none⟩⟩,
      ⟨0, 1, some ⟨0, 2147483647, 0, none⟩⟩] = .ok "AA8/////DA,CA//////DA" := by
    decide +kernel
  refine ⟨hdecode, hencode, fun hagain => ?_⟩
  obtain ⟨t', ht', -, hiff⟩ :=
    decode_encode_decode (Vlq.runsWithin_of_length_le (by decide)) hdecode
  obtain rfl := ht'.eq_of_encode hencode
  have hsteps := (hiff.mp hagain).running .originLine (by decide)
  have hnear : Near ((0 : Nat) : Number) ((4294967294 : Nat) : Number) :=
    (List.isChain_cons_cons.mp hsteps).1
  exact absurd (Number.near_natCast.mp hnear) (by decide)

end MappingTable

end Provenance
