/-
# Splitting a text unit by unit

The segments of a mappings text are found while its units are looked at one after the other.  A comma
finishes the segment that stands in front of it, and so does a semicolon, unless nothing stands on the
line.  What has been found up to some offset does not depend on what comes then, and nothing found later
starts before the segment that is open there.

The main facts:

* `all_eq_segments` : the segments of a text are those that the scanner finds;
* `segments_append` : a text is scanned by scanning one part after the other;
* `reach_spec`, `segments_spec` : where the scanner has got to, and where segments stand;
* `all_append` : what is found up to an offset does not depend on what comes then.
-/
import Provenance.Mapping.Decode
import Provenance.Proofs.Vlq.Faults

namespace Provenance

namespace Segment

/-- The offset just behind a segment. -/
def stop (s : Segment) : Nat := s.offset + s.units.length

/-! ## The scanner -/

/-- A text that is being split: the line, and the units of the open segment, which started at an offset.
At the start of a line no segment is open, but one may start at the offset. -/
structure Scanner where
  line : Nat := 0
  offset : Nat := 0
  units : Option Text := none

namespace Scanner

/-- The offset that the text has been looked at up to. -/
def stop (s : Scanner) : Nat := s.offset + (s.units.getD []).length

/-- The open segment, which is finished by a semicolon or by the end of the text. -/
def close (s : Scanner) : List Segment := s.units.toList.map fun units => ⟨s.line, s.offset, units⟩

/-- A unit is looked at: the segment that it finishes, if it finishes one, and how to go on. -/
def step (s : Scanner) (u : CodeUnit) : List Segment × Scanner :=
  if u = Vlq.semicolon then (s.close, ⟨s.line + 1, s.stop + 1, none⟩)
  else if u = Vlq.comma then
    ([⟨s.line, s.offset, s.units.getD []⟩], ⟨s.line, s.stop + 1, some []⟩)
  else ([], ⟨s.line, s.offset, some (s.units.getD [] ++ [u])⟩)

/-- Some units are looked at: the segments that they finish, and how to go on. -/
def reach (s : Scanner) : Text → List Segment × Scanner
  | [] => ([], s)
  | u :: rest => ((s.step u).1 ++ ((s.step u).2.reach rest).1, ((s.step u).2.reach rest).2)

/-- The segments that are finished up to the end of the text. -/
def segments (s : Scanner) : Text → List Segment
  | [] => s.close
  | u :: rest => (s.step u).1 ++ (s.step u).2.segments rest

/-- **A text is scanned by scanning one part after the other.** -/
theorem segments_append (s : Scanner) (a b : Text) :
    s.segments (a ++ b) = (s.reach a).1 ++ (s.reach a).2.segments b := by
  induction a generalizing s with
  | nil => rfl
  | cons u rest ih => rw [List.cons_append, segments, ih, reach, List.append_assoc]

theorem reach_concat (s : Scanner) (a : Text) (u : CodeUnit) :
    s.reach (a ++ [u]) =
      ((s.reach a).1 ++ ((s.reach a).2.step u).1, ((s.reach a).2.step u).2) := by
  induction a generalizing s with
  | nil => simp [reach]
  | cons v rest ih => simp only [List.cons_append, reach, ih, List.append_assoc]

end Scanner

/-! ## Parts with something in front -/

/-- Parts of a text with units in front of the first one. -/
def prepend (offset : Nat) (units : Text) : List (Nat × Text) → List (Nat × Text)
  | [] => [(offset, units)]
  | (_, part) :: others => (offset, units ++ part) :: others

theorem parts_cons_of_ne {separator u : CodeUnit} (h : u ≠ separator) (offset : Nat) (rest : Text) :
    parts separator offset (u :: rest) = prepend offset [u] (parts separator (offset + 1) rest) := by
  rw [parts, if_neg h]
  cases parts separator (offset + 1) rest <;> rfl

theorem prepend_prepend (offset offset' : Nat) (a b : Text) (ps : List (Nat × Text)) :
    prepend offset a (prepend offset' b ps) = prepend offset (a ++ b) ps := by
  cases ps with
  | nil => rfl
  | cons p others => simp [prepend]

/-- There is a first part, and it starts where the text does. -/
theorem exists_parts_eq_cons (separator : CodeUnit) (offset : Nat) (t : Text) :
    ∃ first others, parts separator offset t = (offset, first) :: others := by
  cases t with
  | nil => exact ⟨[], [], rfl⟩
  | cons u rest =>
    by_cases h : u = separator
    · exact ⟨[], _, by rw [parts, if_pos h]⟩
    · rw [parts_cons_of_ne h]
      cases parts separator (offset + 1) rest with
      | nil => exact ⟨[u], [], rfl⟩
      | cons p others => exact ⟨[u] ++ p.2, others, rfl⟩

theorem prepend_nil (separator : CodeUnit) (offset : Nat) (t : Text) :
    prepend offset [] (parts separator offset t) = parts separator offset t := by
  obtain ⟨first, others, h⟩ := exists_parts_eq_cons separator offset t
  rw [h]
  rfl

/-- A unit that is no separator belongs to the first part. -/
theorem exists_parts_cons_of_ne {separator u : CodeUnit} (h : u ≠ separator) (offset : Nat)
    (rest : Text) :
    ∃ first others, parts separator (offset + 1) rest = (offset + 1, first) :: others ∧
      parts separator offset (u :: rest) = (offset, u :: first) :: others := by
  obtain ⟨first, others, hparts⟩ := exists_parts_eq_cons separator (offset + 1) rest
  refine ⟨first, others, hparts, ?_⟩
  rw [parts_cons_of_ne h, hparts]
  rfl

/-! ## What the scanner finds -/

/-- The segments of a text that starts with a line. -/
def linesFrom (line offset : Nat) (t : Text) : List Segment :=
  ((parts Vlq.semicolon offset t).zipIdx line).flatMap fun ((offset, units), line) =>
    ofLine line offset units

/-- The segments of a text behind the units of an open segment. -/
def openFrom (line offset : Nat) (units t : Text) : List Segment :=
  match parts Vlq.semicolon (offset + units.length) t with
  | [] => []
  | (start, first) :: others =>
    (prepend offset units (parts Vlq.comma start first)).map (fun (start, part) => ⟨line, start, part⟩)
      ++ (others.zipIdx (line + 1)).flatMap fun ((offset, units), line) => ofLine line offset units

/-- A line that is not empty starts with a segment. -/
theorem linesFrom_cons_of_ne {u : CodeUnit} (h : u ≠ Vlq.semicolon) (line offset : Nat) (rest : Text) :
    linesFrom line offset (u :: rest) = openFrom line offset [] (u :: rest) := by
  obtain ⟨first, others, -, hparts⟩ := exists_parts_cons_of_ne h offset rest
  rw [linesFrom, openFrom, List.length_nil, Nat.add_zero, hparts, List.zipIdx_cons,
    List.flatMap_cons]
  dsimp only
  rw [prepend_nil, ofLine, if_neg (List.cons_ne_nil u first)]

/-- A semicolon closes the open segment. -/
theorem openFrom_semicolon (line offset : Nat) (units rest : Text) :
    openFrom line offset units (Vlq.semicolon :: rest) =
      ⟨line, offset, units⟩ :: linesFrom (line + 1) (offset + units.length + 1) rest := by
  rw [openFrom, parts, if_pos rfl]
  simp [parts, prepend, linesFrom]

/-- A comma closes the open segment and opens another one. -/
theorem openFrom_comma (line offset : Nat) (units rest : Text) :
    openFrom line offset units (Vlq.comma :: rest) =
      ⟨line, offset, units⟩ :: openFrom line (offset + units.length + 1) [] rest := by
  obtain ⟨first, others, hrest, hparts⟩ :=
    exists_parts_cons_of_ne (show Vlq.comma ≠ Vlq.semicolon by decide) (offset + units.length) rest
  have hfirst : prepend offset units (parts Vlq.comma (offset + units.length) (Vlq.comma :: first)) =
      (offset, units) :: parts Vlq.comma (offset + units.length + 1) first := by
    rw [parts, if_pos rfl, prepend, List.append_nil]
  rw [openFrom, openFrom, hparts, List.length_nil, Nat.add_zero, hrest]
  dsimp only
  rw [hfirst, prepend_nil, List.map_cons, List.cons_append]

/-- Any other unit belongs to the open segment. -/
theorem openFrom_cons {u : CodeUnit} (hsemicolon : u ≠ Vlq.semicolon) (hcomma : u ≠ Vlq.comma)
    (line offset : Nat) (units rest : Text) :
    openFrom line offset units (u :: rest) = openFrom line offset (units ++ [u]) rest := by
  obtain ⟨first, others, hrest, hparts⟩ :=
    exists_parts_cons_of_ne hsemicolon (offset + units.length) rest
  rw [openFrom, openFrom, hparts, List.length_append, List.length_singleton, ← Nat.add_assoc, hrest]
  dsimp only
  rw [parts_cons_of_ne hcomma, prepend_prepend]

/-- The scanner finds the segments of the lines, and those behind an open segment. -/
theorem segments_eq (t : Text) :
    (∀ line offset, Scanner.segments ⟨line, offset, none⟩ t = linesFrom line offset t) ∧
      ∀ line offset units,
        Scanner.segments ⟨line, offset, some units⟩ t = openFrom line offset units t := by
  induction t with
  | nil =>
    refine ⟨fun line offset => ?_, fun line offset units => ?_⟩
    · simp [Scanner.segments, Scanner.close, linesFrom, parts, ofLine]
    · simp [Scanner.segments, Scanner.close, openFrom, parts, prepend]
  | cons u rest ih =>
    obtain ⟨hlines, hopen⟩ := ih
    have hsome : ∀ line offset units,
        Scanner.segments ⟨line, offset, some units⟩ (u :: rest) =
          openFrom line offset units (u :: rest) := by
      intro line offset units
      rw [Scanner.segments, Scanner.step]
      split
      · rename_i hu
        rw [hu, openFrom_semicolon, hlines]
        rfl
      · rename_i hsemicolon
        split
        · rename_i hu
          rw [hu, openFrom_comma, hopen]
          rfl
        · rename_i hcomma
          rw [openFrom_cons hsemicolon hcomma, hopen]
          rfl
    refine ⟨fun line offset => ?_, hsome⟩
    by_cases hu : u = Vlq.semicolon
    · rw [hu, Scanner.segments, Scanner.step, if_pos rfl, hlines]
      simp [Scanner.close, Scanner.stop, linesFrom, parts, ofLine]
    · -- at the start of a line a segment is opened as behind a comma
      rw [linesFrom_cons_of_ne hu, ← hsome, Scanner.segments, Scanner.segments, Scanner.step,
        Scanner.step, if_neg hu, if_neg hu]
      rfl

/-- **The segments of a text are those that the scanner finds.** -/
theorem all_eq_segments (t : Text) : all t = Scanner.segments {} t :=
  ((segments_eq t).1 0 0).symm

/-! ## Where segments stand -/

namespace Scanner

open Vlq (SeparatorFree)

variable {s : Scanner} {u : CodeUnit}

/-- No separator stands in the open segment. -/
def Clean (s : Scanner) : Prop := SeparatorFree (s.units.getD [])

theorem clean_start : Clean {} := fun _ h => nomatch h

/-- A unit that is no separator belongs to the open segment, or opens one. -/
theorem step_of_endsFields_false (h : Vlq.endsFields u = false) (s : Scanner) :
    s.step u = ([], ⟨s.line, s.offset, some (s.units.getD [] ++ [u])⟩) := by
  rw [Vlq.endsFields, Bool.or_eq_false_iff, beq_eq_false_iff_ne, beq_eq_false_iff_ne] at h
  rw [step, if_neg h.2, if_neg h.1]

/-- A separator finishes the open segment; a comma also finishes an empty one, and opens the next. -/
theorem step_of_endsFields (h : Vlq.endsFields u = true) (s : Scanner) :
    s.step u = (s.close, ⟨s.line + 1, s.stop + 1, none⟩) ∨
      s.step u = ([⟨s.line, s.offset, s.units.getD []⟩], ⟨s.line, s.stop + 1, some []⟩) := by
  rw [Vlq.endsFields, Bool.or_eq_true, beq_iff_eq, beq_iff_eq] at h
  rw [step]
  split
  · exact Or.inl rfl
  · rename_i hsemicolon
    rw [if_pos (h.resolve_right hsemicolon)]
    exact Or.inr rfl

/-- Behind a separator a segment may start. -/
theorem offset_step (h : Vlq.endsFields u = true) (s : Scanner) :
    (s.step u).2.offset = s.stop + 1 := by
  rcases step_of_endsFields h s with hstep | hstep <;> rw [hstep]

/-- The segment that the end of the text would finish is finished by a separator, too. -/
theorem close_prefix (h : Vlq.endsFields u = true) (s : Scanner) : s.close <+: (s.step u).1 := by
  rcases step_of_endsFields h s with hstep | hstep
  · exact ⟨[], by rw [hstep, List.append_nil]⟩
  · rw [hstep, close]
    cases s.units with
    | none => exact List.nil_prefix
    | some units => exact List.prefix_refl _

/-- What one unit does: the segment that it finishes ends in front of it. -/
theorem step_spec (hs : s.Clean) (u : CodeUnit) :
    (∀ x ∈ (s.step u).1, SeparatorFree x.units ∧ x.offset = s.offset ∧ x.stop = s.stop) ∧
      s.offset ≤ (s.step u).2.offset ∧ (s.step u).2.stop = s.stop + 1 ∧ (s.step u).2.Clean := by
  have hempty : SeparatorFree [] := fun _ h => nomatch h
  cases hu : Vlq.endsFields u with
  | false =>
    rw [step_of_endsFields_false hu]
    refine ⟨by simp, Nat.le_refl _, ?_, fun v hv => ?_⟩
    · simp [stop, Nat.add_assoc]
    · rcases List.mem_append.mp hv with hv | hv
      · exact hs v hv
      · rw [List.mem_singleton.mp hv, hu]
  | true =>
    have hopen : SeparatorFree (Segment.mk s.line s.offset (s.units.getD [])).units ∧
        s.offset = s.offset ∧ (Segment.mk s.line s.offset (s.units.getD [])).stop = s.stop :=
      ⟨hs, rfl, rfl⟩
    have hle : s.offset ≤ s.stop + 1 := by
      rw [stop]
      omega
    rcases step_of_endsFields hu s with hstep | hstep
    · rw [hstep]
      refine ⟨?_, hle, rfl, hempty⟩
      rw [close]
      cases hunits : s.units with
      | none => simp
      | some units =>
        rw [hunits] at hopen
        exact List.forall_mem_singleton.mpr hopen
    · rw [hstep]
      exact ⟨List.forall_mem_singleton.mpr hopen, hle, rfl, hempty⟩

/-- Where the scanner has got to after some units, and that the segments finished by them end before
that. -/
theorem reach_spec (hs : s.Clean) (t : Text) :
    (s.reach t).2.Clean ∧ s.offset ≤ (s.reach t).2.offset ∧ (s.reach t).2.stop = s.stop + t.length ∧
      ∀ x ∈ (s.reach t).1, SeparatorFree x.units ∧ s.offset ≤ x.offset ∧
        x.stop < s.stop + t.length := by
  induction t generalizing s with
  | nil => exact ⟨hs, Nat.le_refl _, rfl, by simp [reach]⟩
  | cons u rest ih =>
    obtain ⟨hfinished, hoffset, hstop, hclean⟩ := step_spec hs u
    obtain ⟨hclean', hoffset', hstop', hsegments⟩ := ih hclean
    rw [hstop] at hstop' hsegments
    simp only [reach, List.length_cons]
    refine ⟨hclean', by omega, by omega, List.forall_mem_append.mpr ⟨fun x hx => ?_, fun x hx => ?_⟩⟩
    · obtain ⟨hxfree, hxoffset, hxstop⟩ := hfinished x hx
      exact ⟨hxfree, by omega, by omega⟩
    · obtain ⟨hxfree, hxoffset, hxstop⟩ := hsegments x hx
      exact ⟨hxfree, by omega, by omega⟩

/-- Segments start where the open one does or later, and end in the text. -/
theorem segments_spec (hs : s.Clean) (t : Text) :
    ∀ x ∈ s.segments t, SeparatorFree x.units ∧ s.offset ≤ x.offset ∧ x.stop ≤ s.stop + t.length := by
  obtain ⟨hclean, hoffset, hstop, hfinished⟩ := reach_spec hs t
  have happend := segments_append s t []
  rw [List.append_nil] at happend
  rw [happend, segments]
  refine List.forall_mem_append.mpr ⟨fun x hx => ?_, fun x hx => ?_⟩
  · obtain ⟨hfree, hxoffset, hlt⟩ := hfinished x hx
    exact ⟨hfree, hxoffset, Nat.le_of_lt hlt⟩
  · obtain ⟨units, hunits, rfl⟩ := List.mem_map.mp hx
    have hopen : (s.reach t).2.units.getD [] = units := by rw [Option.mem_toList.mp hunits]; rfl
    rw [Clean, hopen] at hclean
    rw [Scanner.stop, hopen] at hstop
    exact ⟨hclean, hoffset, Nat.le_of_eq hstop⟩

/-- The open segment is finished later, and others start behind it. -/
theorem segments_open (line offset : Nat) {units : Text} (hunits : SeparatorFree units) (t : Text) :
    ∃ more rest, segments ⟨line, offset, some units⟩ t = ⟨line, offset, units ++ more⟩ :: rest ∧
      ∀ x ∈ rest, SeparatorFree x.units ∧ offset + units.length < x.offset := by
  induction t generalizing units with
  | nil => exact ⟨[], [], by simp [segments, close], by simp⟩
  | cons u rest ih =>
    have hclean : Clean ⟨line, offset, some units⟩ := hunits
    obtain ⟨-, -, -, hnext⟩ := step_spec hclean u
    rw [segments]
    cases hu : Vlq.endsFields u with
    | false =>
      rw [step_of_endsFields_false hu] at hnext ⊢
      have hnext : SeparatorFree (units ++ [u]) := hnext
      obtain ⟨more, others, hsegments, hothers⟩ := ih hnext
      refine ⟨u :: more, others, ?_, fun x hx => ?_⟩
      · simpa using hsegments
      · obtain ⟨hfree, hlt⟩ := hothers x hx
        rw [List.length_append, List.length_singleton] at hlt
        exact ⟨hfree, by omega⟩
    | true =>
      have hoffset := offset_step hu ⟨line, offset, some units⟩
      have hfinished : (step ⟨line, offset, some units⟩ u).1 = [⟨line, offset, units⟩] := by
        rcases step_of_endsFields hu ⟨line, offset, some units⟩ with hstep | hstep <;> rw [hstep] <;> rfl
      refine ⟨[], _, by rw [hfinished, List.append_nil]; rfl, fun x hx => ?_⟩
      obtain ⟨hfree, hle, -⟩ := segments_spec hnext rest x hx
      rw [hoffset] at hle
      exact ⟨hfree, hle⟩

end Scanner

/-! ## What is found up to a unit -/

/-- What the scanner finds up to a unit is found whatever comes then. -/
theorem all_append (a b : Text) :
    all (a ++ b) = (Scanner.reach {} a).1 ++ (Scanner.reach {} a).2.segments b := by
  rw [all_eq_segments, Scanner.segments_append]

/-- The segments of a text are found up to a separator behind it. -/
theorem all_prefix_reach {u : CodeUnit} (hu : Vlq.endsFields u = true) (t : Text) :
    all t <+: (Scanner.reach {} (t ++ [u])).1 := by
  have h := all_append t []
  rw [List.append_nil] at h
  rw [h, Scanner.reach_concat, Scanner.segments]
  exact (List.prefix_append_right_inj _).mpr (Scanner.close_prefix hu _)

/-- No segment stands behind a semicolon at the end of a text. -/
theorem all_concat_semicolon (t : Text) :
    all (t ++ [Vlq.semicolon]) = (Scanner.reach {} (t ++ [Vlq.semicolon])).1 := by
  have h := all_append (t ++ [Vlq.semicolon]) []
  rw [List.append_nil] at h
  rw [h, Scanner.segments, Scanner.reach_concat, Scanner.step, if_pos rfl]
  exact List.append_nil _

end Segment

end Provenance
