/-
# Accepted texts

The texts that can be decoded are those of the grammar whose sums of fields are not negative, as
long as no run of continued digits exceeds 204.  A field with a longer run may be without a value;
it is not rejected, and leaves the table with a number that has none.

The main facts:

* `decode_iff_lines` : what is decoded, and from which texts;
* `natural_iff_runsWithin` : a decoded table has naturals only if and only if no run of continued
  digits in its text is too long.
-/
import Provenance.Proofs.Mapping.Sums

namespace Provenance.MappingTable

open Vlq (Numeral)

variable {t : Text} {table : MappingTable} {lines : List (List (Fields Numeral))}

/-! ## Runs and short fields -/

/-- If no number of a decoded table is missing, all fields of the text have values. -/
theorem values_of_decode (h : decode t = .ok table)
    (hnumbers : ∀ m ∈ table, .nan ∉ m.fields.toList) :
    ∀ segment ∈ Segment.all t,
      ∀ x ∈ (Vlq.readAll segment.offset segment.units).fields, x.value ≠ .nan := by
  intro segment hsegment
  obtain ⟨⟨es, s⟩, hes, h⟩ := bind_eq_ok_iff.mp h
  obtain rfl := Except.ok.inj h
  obtain ⟨r, m, s', hread, hmem⟩ := exists_read_of_decodeFrom hes segment hsegment
  exact value_ne_nan_of_read hread (hnumbers m ((sort_perm es).mem_iff.mpr hmem))

/-- If no run of continued digits is too long, all fields of a text have values. -/
theorem values_of_runsWithin (h : Vlq.RunsWithin (Vlq.finitePlaces - 1) t) :
    ∀ segment ∈ Segment.all t,
      ∀ x ∈ (Vlq.readAll segment.offset segment.units).fields, x.value ≠ .nan := by
  intro segment hsegment x hx hnan
  obtain ⟨run, hrun, hall, hlength⟩ := Vlq.exists_run_of_readAll hx hnan
  have hle := h run (hrun.trans (Segment.units_infix hsegment)) hall
  exact absurd (Nat.le_trans hlength hle) (by decide)

/-- The text of lines of short fields has no run of continued digits that is too long. -/
theorem runsWithin_text
    (hshort : ∀ line ∈ lines, ∀ f ∈ line, ∀ n ∈ f.toList, n.Short) :
    Vlq.RunsWithin (Vlq.finitePlaces - 1) (Lines.text lines) := by
  apply Vlq.Sealed.runsWithin
  apply Vlq.sealed_join (Vlq.sealed_singleton rfl)
  intro t ht
  obtain ⟨line, hline, rfl⟩ := List.mem_map.mp ht
  apply Vlq.sealed_join (Vlq.sealed_singleton rfl)
  intro t ht
  obtain ⟨f, hf, rfl⟩ := List.mem_map.mp ht
  exact Vlq.sealed_flatMap fun n hn => Vlq.sealed_text (hshort line hline f hf n hn)

/-- In a text without too long runs of continued digits all fields are short. -/
theorem short_of_runsWithin_text
    (h : Vlq.RunsWithin (Vlq.finitePlaces - 1) (Lines.text lines)) :
    ∀ line ∈ lines, ∀ f ∈ line, ∀ n ∈ f.toList, n.Short := by
  intro line hline f hf n hn
  apply Vlq.short_of_runsWithin
  apply h.of_infix
  have hn : n.text <:+: f.text := infix_flatMap hn
  have hf : f.text <:+: Lines.lineText line := infix_join [Vlq.comma] (List.mem_map_of_mem hf)
  exact (hn.trans hf).trans (infix_join [Vlq.semicolon] (List.mem_map_of_mem hline))

/-! ## What is decoded -/

/-- What is decoded from lines of short fields: their entries in order, if no number is negative. -/
theorem decode_text_iff_stablySorted
    (hshort : ∀ line ∈ lines, ∀ f ∈ line, ∀ n ∈ f.toList, n.Short) :
    decode (Lines.text lines) = .ok table ↔
      (∀ m ∈ Lines.entries Number.sum lines, ∀ x ∈ m.fields.toList, 0 ≤ x) ∧
        StablySorted (Lines.entries Number.sum lines) table := by
  rw [decode_text_eq_ok_iff hshort, Lines.entries_numbers]
  have hsigns : (∀ m ∈ Lines.entries Number.sum lines, ∀ x ∈ m.fields.toList, ¬ x < 0) ↔
      ∀ m ∈ Lines.entries Number.sum lines, ∀ x ∈ m.fields.toList, 0 ≤ x := by
    refine forall₂_congr fun m hm => forall₂_congr fun x hx => ?_
    obtain ⟨i, rfl⟩ := Lines.exists_int_of_mem_entries hm x hx
    exact Number.intCast_nonneg_iff.symm
  rw [hsigns]
  refine and_congr_right fun hnonneg => ?_
  exact (stablySorted_iff (placed_of_natural (Lines.natural_of_nonneg hnonneg))).symm

/-- A text without too long runs of continued digits is decoded if it is that of lines whose sums of
fields are not negative. -/
theorem decode_eq_ok_iff_lines (h : Vlq.RunsWithin 204 t) :
    decode t = .ok table ↔
      ∃ lines : List (List (Fields Numeral)), t = Lines.text lines ∧
        (∀ m ∈ Lines.entries Number.sum lines, ∀ x ∈ m.fields.toList, 0 ≤ x) ∧
        StablySorted (Lines.entries Number.sum lines) table := by
  constructor
  · intro hdecode
    obtain ⟨lines, hshort, rfl⟩ := exists_lines_of_decode hdecode (values_of_runsWithin h)
    exact ⟨lines, rfl, (decode_text_iff_stablySorted hshort).mp hdecode⟩
  · rintro ⟨lines, rfl, hlines⟩
    exact (decode_text_iff_stablySorted (short_of_runsWithin_text h)).mpr hlines

/-- A decoded table without missing numbers has the entries of lines, put in order. -/
theorem exists_entries_of_decode (hruns : Vlq.RunsWithin 204 t) (h : decode t = .ok table) :
    ∃ lines : List (List (Fields Numeral)), t = Lines.text lines ∧
      (∀ m ∈ Lines.entries Number.sum lines, m.Natural) ∧
        sort (Lines.entries Number.sum lines) = table := by
  obtain ⟨lines, ht, hnonneg, hsorted⟩ := (decode_eq_ok_iff_lines hruns).mp h
  have hnatural := Lines.natural_of_nonneg hnonneg
  exact ⟨lines, ht, hnatural, (stablySorted_iff (placed_of_natural hnatural)).mp hsorted⟩

/-- **What is decoded, and from which texts.**  A text without too long runs of continued digits
gives a table if it is that of lines whose sums of fields are not negative; the table has one entry
for each segment, in order.  Every other text is rejected.  The sums are rounded with each field that is
added; they are the exact ones as long as these are binary64 values, which they are in texts of up to
2^22 segments. -/
theorem decode_iff_lines (h : Vlq.RunsWithin 204 t) :
    (∀ table, decode t = .ok table ↔
      ∃ lines : List (List (Fields Numeral)), t = Lines.text lines ∧
        (∀ m ∈ Lines.entries Number.sum lines, ∀ x ∈ m.fields.toList, 0 ≤ x) ∧
        StablySorted (Lines.entries Number.sum lines) table) ∧
    ((∃ e, decode t = .error e) ↔
      ¬ ∃ lines : List (List (Fields Numeral)), t = Lines.text lines ∧
        ∀ m ∈ Lines.entries Number.sum lines, ∀ x ∈ m.fields.toList, 0 ≤ x) ∧
    ∀ lines : List (List (Fields Numeral)), t = Lines.text lines →
      (Lines.entries Number.sum lines = Lines.entries Number.exactSum lines ↔
        ∀ m ∈ Lines.entries Number.exactSum lines, ∀ x ∈ m.fields.toList, x.rounded = x) ∧
      ((Lines.segments lines).length ≤ 2 ^ 22 →
        Lines.entries Number.sum lines = Lines.entries Number.exactSum lines) := by
  refine ⟨fun table => decode_eq_ok_iff_lines h, ?_, fun lines _ =>
    ⟨Lines.entries_eq_exact_iff lines, Lines.entries_eq_exact_of_length_le⟩⟩
  constructor
  · rintro ⟨e, he⟩ ⟨lines, ht, hnonneg⟩
    have hsorted := stablySorted_sort (placed_of_natural (Lines.natural_of_nonneg hnonneg))
    rw [(decode_eq_ok_iff_lines h).mpr ⟨lines, ht, hnonneg, hsorted⟩] at he
    cases he
  · intro hnone
    cases hdecode : decode t with
    | error e => exact ⟨e, rfl⟩
    | ok table =>
      obtain ⟨lines, ht, hnonneg, -⟩ := (decode_eq_ok_iff_lines h).mp hdecode
      exact absurd ⟨lines, ht, hnonneg⟩ hnone

/-- Two lines with a segment each are accepted, a comma without a segment behind it is not. -/
theorem decode_iff_lines_semicolon_comma :
    (∃ lines : List (List (Fields Numeral)), ("AAAA;AACA" : Text) = Lines.text lines ∧
      (∀ m ∈ Lines.entries Number.sum lines, ∀ x ∈ m.fields.toList, 0 ≤ x) ∧
      StablySorted (Lines.entries Number.sum lines)
        [⟨0, 0, some ⟨0, 0, 0, none⟩⟩, ⟨1, 0, some ⟨0, 1, 0, none⟩⟩]) ∧
    ¬ ∃ lines : List (List (Fields Numeral)), ("AAAA," : Text) = Lines.text lines ∧
      ∀ m ∈ Lines.entries Number.sum lines, ∀ x ∈ m.fields.toList, 0 ≤ x := by
  have haccepted : Vlq.RunsWithin 204 "AAAA;AACA" := Vlq.runsWithin_of_length_le (by decide)
  have hrejected : Vlq.RunsWithin 204 "AAAA," := Vlq.runsWithin_of_length_le (by decide)
  constructor
  · exact ((decode_iff_lines haccepted).1 _).mp (by decide +kernel)
  · exact (decode_iff_lines hrejected).2.1.mp ⟨.emptySegment 5, by decide +kernel⟩

/-! ## Numbers without a value -/

/-- Without too long runs of continued digits, all numbers of a decoded table are naturals. -/
theorem natural_of_decode (hruns : Vlq.RunsWithin 204 t) (h : decode t = .ok table) :
    ∀ m ∈ table, m.Natural := by
  obtain ⟨lines, -, hnatural, rfl⟩ := exists_entries_of_decode hruns h
  exact fun m hm => hnatural m ((sort_perm _).mem_iff.mp hm)

/-- If all numbers of a decoded table are naturals, no run of continued digits is too long. -/
theorem runsWithin_of_natural (h : decode t = .ok table) (hnatural : ∀ m ∈ table, m.Natural) :
    Vlq.RunsWithin 204 t := by
  have hnumbers : ∀ m ∈ table, .nan ∉ m.fields.toList := by
    intro m hm hnan
    obtain ⟨n, hn⟩ := hnatural m hm .nan (List.mem_cons_of_mem _ hnan)
    cases hn
  obtain ⟨lines, hshort, rfl⟩ := exists_lines_of_decode h (values_of_decode h hnumbers)
  exact runsWithin_text hshort

/-- A decoded table of naturals is in order. -/
theorem sorted_of_decode (h : decode t = .ok table) (hnatural : ∀ m ∈ table, m.Natural) :
    table.Sorted := by
  have hplaced := placed_of_natural hnatural
  obtain ⟨⟨es, s⟩, -, h⟩ := bind_eq_ok_iff.mp h
  obtain rfl := Except.ok.inj h
  exact sort_sorted fun m hm => hplaced m ((sort_perm es).mem_iff.mpr hm)

/-- **When a decoded table is well-formed.**  Its numbers are naturals, where they have a value; all
of them have one if and only if no run of continued digits in the text exceeds 204, and then the
table is in order. -/
theorem natural_iff_runsWithin (h : decode t = .ok table) :
    ((∀ m ∈ table, m.Natural) ↔ Vlq.RunsWithin 204 t) ∧
    ((∀ m ∈ table, m.Natural) → table.inOrder = true) ∧
    ∀ m ∈ table, (∃ line : Nat, m.line = (line : Number)) ∧
      ∀ x ∈ m.fields.toList, x = .nan ∨ ∃ n : Nat, x = (n : Number) := by
  refine ⟨⟨runsWithin_of_natural h, fun hruns => natural_of_decode hruns h⟩, fun hnatural => ?_,
    fun m hm => ?_⟩
  · rw [inOrder_iff_sorted (placed_of_natural hnatural)]
    exact sorted_of_decode h hnatural
  · obtain ⟨hline, hreached⟩ := reached_of_decode h m hm
    refine ⟨hline, fun x hx => ?_⟩
    rcases hreached x hx with hnan | ⟨n, -, hn⟩
    · exact Or.inl hnan
    · exact Or.inr ⟨n, hn⟩

/-- A field of 205 continued zeros and a last one is accepted, and makes a column without a value.
-/
theorem natural_iff_runsWithin_zeros :
    decode (List.replicate 205 103 ++ [65]) = .ok [⟨0, .nan, none⟩] ∧
      ¬ Vlq.RunsWithin 204 (List.replicate 205 103 ++ [65]) ∧
      ¬ ∀ m ∈ ([⟨0, .nan, none⟩] : MappingTable), m.Natural := by
  have h : decode (List.replicate 205 103 ++ [65]) = .ok [⟨0, .nan, none⟩] := by decide +kernel
  have hruns : ¬ Vlq.RunsWithin 204 (List.replicate 205 103 ++ [65]) := by
    intro hruns
    have hle := hruns (List.replicate 205 103) (List.prefix_append _ _).isInfix fun u hu => by
      rw [List.eq_of_mem_replicate hu]
      rfl
    rw [List.length_replicate] at hle
    omega
  exact ⟨h, hruns, fun hnatural => hruns ((natural_iff_runsWithin h).1.mp hnatural)⟩

end Provenance.MappingTable
