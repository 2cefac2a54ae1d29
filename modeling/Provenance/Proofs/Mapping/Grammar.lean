/-
# The grammar of mappings texts

A mappings text is a list of lines, a line a list of segments, and a segment the fields of one
entry: its generated column, and where it has an origin, the source, line and column of that, and
its name.  The fields are numerals.  Segments are joined by commas and lines by semicolons.

The main facts:

* `map_units_all` : the segments of a text are what it is split to at semicolons and commas;
* `map_units_all_text` : the segments of the text of some lines are those of the lines;
* `exists_lines_of_all` : a text whose segments are fields is the text of some lines.
-/
import Provenance.Mapping.Decode
import Provenance.Proofs.Lists
import Provenance.Proofs.Vlq.Run

namespace Provenance

variable {α β : Type}

/-! ## Fields -/

/-- The fields of an origin. -/
structure OriginFields (α : Type) where
  source : α
  line : α
  column : α
  name : Option α := none

/-- The fields of a segment: one, four or five of them. -/
structure Fields (α : Type) where
  column : α
  origin : Option (OriginFields α) := none

namespace Fields

/-- The fields in the order in which they are written. -/
def toList (f : Fields α) : List α :=
  match f.origin with
  | none => [f.column]
  | some o => f.column :: o.source :: o.line :: o.column :: o.name.toList

/-- The fields with each of them replaced. -/
def map (g : α → β) (f : Fields α) : Fields β where
  column := g f.column
  origin := f.origin.map fun o => ⟨g o.source, g o.line, g o.column, o.name.map g⟩

@[simp] theorem toList_mk_none (c : α) : toList ⟨c, none⟩ = [c] := rfl

@[simp] theorem toList_mk_some (c : α) (o : OriginFields α) :
    toList ⟨c, some o⟩ = c :: o.source :: o.line :: o.column :: o.name.toList := rfl

@[simp] theorem toList_map (g : α → β) (f : Fields α) : (f.map g).toList = f.toList.map g := by
  obtain ⟨c, _ | ⟨s, l, oc, _ | n⟩⟩ := f <;> rfl

theorem map_map {γ : Type} (h : β → γ) (g : α → β) (f : Fields α) :
    (f.map g).map h = f.map (h ∘ g) := by
  obtain ⟨c, _ | ⟨s, l, oc, _ | n⟩⟩ := f <;> rfl

theorem length_toList (f : Fields α) :
    f.toList.length = 1 ∨ f.toList.length = 4 ∨ f.toList.length = 5 := by
  obtain ⟨c, _ | ⟨s, l, oc, _ | n⟩⟩ := f <;> simp

/-- One, four or five things are the fields of a segment. -/
theorem exists_toList_eq {xs : List α} (h : xs.length = 1 ∨ xs.length = 4 ∨ xs.length = 5) :
    ∃ f : Fields α, f.toList = xs := by
  match xs, h with
  | [c], _ => exact ⟨⟨c, none⟩, rfl⟩
  | [c, s, l, oc], _ => exact ⟨⟨c, some ⟨s, l, oc, none⟩⟩, rfl⟩
  | [c, s, l, oc, n], _ => exact ⟨⟨c, some ⟨s, l, oc, some n⟩⟩, rfl⟩

/-- The field of a kind, if the segment carries one. -/
def get? (f : Fields α) : MappingField → Option α
  | .generatedColumn => some f.column
  | .source => f.origin.map OriginFields.source
  | .originLine => f.origin.map OriginFields.line
  | .originColumn => f.origin.map OriginFields.column
  | .name => f.origin.bind OriginFields.name

@[simp] theorem get?_map (g : α → β) (f : Fields α) (k : MappingField) :
    (f.map g).get? k = (f.get? k).map g := by
  obtain ⟨c, _ | ⟨s, l, oc, _ | n⟩⟩ := f <;> cases k <;> rfl

/-- The fields of a segment are those of all kinds. -/
theorem mem_toList_iff {f : Fields α} {x : α} : x ∈ f.toList ↔ ∃ k, f.get? k = some x := by
  constructor
  · obtain ⟨c, _ | ⟨s, l, oc, n⟩⟩ := f
    · intro h
      exact ⟨.generatedColumn, congrArg some (List.mem_singleton.mp h).symm⟩
    · simp only [toList_mk_some, List.mem_cons, Option.mem_toList]
      rintro (rfl | rfl | rfl | rfl | h)
      · exact ⟨.generatedColumn, rfl⟩
      · exact ⟨.source, rfl⟩
      · exact ⟨.originLine, rfl⟩
      · exact ⟨.originColumn, rfl⟩
      · exact ⟨.name, h⟩
  · rintro ⟨k, h⟩
    obtain ⟨c, _ | ⟨s, l, oc, n⟩⟩ := f
    · cases k with
      | generatedColumn => exact List.mem_singleton.mpr (Option.some.inj h).symm
      | _ => cases h
    · cases k with
      | name => simp [show n = some x from h]
      | _ => simp [← Option.some.inj h]

/-- The text of the fields of a segment. -/
def text (f : Fields Vlq.Numeral) : Text := f.toList.flatMap Vlq.Numeral.text

theorem text_ne_nil (f : Fields Vlq.Numeral) : f.text ≠ [] := by
  have hcolumn : f.column ∈ f.toList := by
    obtain ⟨c, _ | o⟩ := f <;> simp
  intro h
  exact f.column.text_ne_nil (List.flatMap_eq_nil_iff.mp h f.column hcolumn)

/-- No separator stands within a segment. -/
theorem endsFields_of_mem {f : Fields Vlq.Numeral} {u : CodeUnit} (h : u ∈ f.text) :
    Vlq.endsFields u = false := by
  obtain ⟨n, -, hu⟩ := List.mem_flatMap.mp h
  exact Vlq.Numeral.endsFields_of_mem hu

end Fields

/-! ## Lines -/

namespace Lines

/-- The text of a line. -/
def lineText (line : List (Fields Vlq.Numeral)) : Text :=
  Text.join [Vlq.comma] (line.map Fields.text)

/-- The text of some lines. -/
def text (lines : List (List (Fields Vlq.Numeral))) : Text :=
  Text.join [Vlq.semicolon] (lines.map lineText)

/-- The segments of lines, each with the number of its line. -/
def segments (lines : List (List α)) : List (Nat × α) :=
  lines.zipIdx.flatMap fun (line, number) => line.map fun f => (number, f)

/-- A segment of lines is a segment of one of them. -/
theorem exists_mem_of_mem_segments {lines : List (List α)} {s : Nat × α} (h : s ∈ segments lines) :
    ∃ line ∈ lines, s.2 ∈ line := by
  obtain ⟨⟨line, number⟩, hline, hs⟩ := List.mem_flatMap.mp h
  obtain ⟨f, hf, rfl⟩ := List.mem_map.mp hs
  exact ⟨line, List.fst_mem_of_mem_zipIdx hline, hf⟩

/-- Every segment of a line is one of the segments of the lines. -/
theorem exists_mem_segments {lines : List (List α)} {line : List α} {f : α} (hline : line ∈ lines)
    (hf : f ∈ line) : ∃ number, (number, f) ∈ segments lines := by
  obtain ⟨number, hnumber⟩ := List.mem_iff_getElem?.mp hline
  refine ⟨number, List.mem_flatMap.mpr ⟨(line, number), ?_, List.mem_map_of_mem hf⟩⟩
  exact List.mem_zipIdx_iff_getElem?.mpr hnumber

end Lines

/-! ## Parts of joined texts -/

theorem infix_flatMap {f : α → Text} {x : α} {xs : List α} (h : x ∈ xs) :
    f x <:+: xs.flatMap f := by
  obtain ⟨before, after, rfl⟩ := List.append_of_mem h
  rw [List.flatMap_append, List.flatMap_cons]
  exact ⟨before.flatMap f, after.flatMap f, List.append_assoc _ _ _⟩

theorem infix_join (separator : Text) {t : Text} {ts : List Text} (h : t ∈ ts) :
    t <:+: Text.join separator ts := by
  unfold Text.join
  induction ts with
  | nil => cases h
  | cons s rest ih =>
    cases rest with
    | nil =>
      refine ⟨[], [], ?_⟩
      rw [List.mem_singleton.mp h, List.intercalate_singleton, List.nil_append, List.append_nil]
    | cons s' rest =>
      rw [List.intercalate_cons_cons]
      rcases List.mem_cons.mp h with rfl | h
      · rw [List.append_assoc]
        exact (List.prefix_append t _).isInfix
      · exact (ih h).trans (List.suffix_append _ _).isInfix

namespace Segment

/-! ## Splitting -/

theorem map_snd_parts (separator : CodeUnit) (offset : Nat) (t : Text) :
    (parts separator offset t).map Prod.snd = t.splitOn separator := by
  induction t generalizing offset with
  | nil => rfl
  | cons u rest ih =>
    have hsplit : (u :: rest).splitOn separator =
        if u = separator then [] :: rest.splitOn separator
        else (rest.splitOn separator).modifyHead (u :: ·) := by
      rw [List.splitOn, List.splitOn, List.splitOnP_cons_eq_if_modifyHead]
      simp only [beq_iff_eq]
    rw [hsplit, parts]
    split
    · rw [List.map_cons, ih]
    · rw [← ih (offset + 1)]
      cases hparts : parts separator (offset + 1) rest with
      | nil =>
        have := ih (offset + 1)
        rw [hparts] at this
        exact absurd this.symm (List.splitOn_ne_nil separator rest)
      | cons first others => rfl

/-- **The segments of a text are what it is split to.** -/
theorem map_units_all (t : Text) :
    (all t).map (fun s => (s.line, s.units)) =
      (t.splitOn Vlq.semicolon).zipIdx.flatMap fun (line, number) =>
        if line = [] then [] else (line.splitOn Vlq.comma).map fun part => (number, part) := by
  rw [all, List.map_flatMap, ← map_snd_parts Vlq.semicolon 0 t, List.zipIdx_map, List.flatMap_map]
  congr 1
  funext ⟨⟨offset, units⟩, number⟩
  show (ofLine number offset units).map _ = _
  rw [ofLine]
  simp only [Prod.map, id]
  split
  · rfl
  · rw [← map_snd_parts Vlq.comma offset units, List.map_map, List.map_map]
    rfl

/-- The units of a segment stand together in the text. -/
theorem units_infix {t : Text} {s : Segment} (h : s ∈ all t) : s.units <:+: t := by
  have hmem : (s.line, s.units) ∈ (all t).map fun s => (s.line, s.units) :=
    List.mem_map_of_mem (f := fun s : Segment => (s.line, s.units)) h
  rw [map_units_all] at hmem
  obtain ⟨⟨line, number⟩, hline, hpart⟩ := List.mem_flatMap.mp hmem
  have hline : line <:+: t := by
    have hjoined := infix_join [Vlq.semicolon] (List.fst_mem_of_mem_zipIdx hline)
    rwa [Text.join, List.intercalate_splitOn] at hjoined
  dsimp only at hpart
  split at hpart
  · cases hpart
  · obtain ⟨part, hpart, heq⟩ := List.mem_map.mp hpart
    obtain ⟨-, rfl⟩ := Prod.mk.inj heq
    have hjoined := infix_join [Vlq.comma] hpart
    rw [Text.join, List.intercalate_splitOn] at hjoined
    exact hjoined.trans hline

end Segment

namespace Lines

open Vlq (Numeral semicolon comma)

/-! ## Splitting the text of lines -/

theorem endsFields_semicolon : Vlq.endsFields semicolon = true := rfl

/-- Only a comma ends fields within a line. -/
theorem eq_comma_of_mem_lineText {line : List (Fields Numeral)} {u : CodeUnit}
    (h : u ∈ lineText line) (hu : Vlq.endsFields u = true) : u = comma := by
  unfold lineText Text.join at h
  induction line with
  | nil => cases h
  | cons f rest ih =>
    have hf : u ∉ f.text := fun hmem => by
      rw [Fields.endsFields_of_mem hmem] at hu
      cases hu
    cases rest with
    | nil =>
      rw [List.map_singleton, List.intercalate_singleton] at h
      exact absurd h hf
    | cons f' rest =>
      rw [List.map_cons, List.map_cons, List.intercalate_cons_cons] at h
      rcases List.mem_append.mp h with h | h
      · rcases List.mem_append.mp h with h | h
        · exact absurd h hf
        · exact List.mem_singleton.mp h
      · exact ih h

theorem splitOn_lineText {line : List (Fields Numeral)} (h : line ≠ []) :
    (lineText line).splitOn comma = line.map Fields.text := by
  apply List.splitOn_intercalate
  · intro t ht hmem
    obtain ⟨f, -, rfl⟩ := List.mem_map.mp ht
    exact Bool.noConfusion (Fields.endsFields_of_mem hmem)
  · rwa [Ne, List.map_eq_nil_iff]

theorem splitOn_text {lines : List (List (Fields Numeral))} (h : lines ≠ []) :
    (text lines).splitOn semicolon = lines.map lineText := by
  apply List.splitOn_intercalate
  · intro t ht hmem
    obtain ⟨line, -, rfl⟩ := List.mem_map.mp ht
    exact absurd (eq_comma_of_mem_lineText hmem endsFields_semicolon) (by decide)
  · rwa [Ne, List.map_eq_nil_iff]

theorem lineText_eq_nil_iff {line : List (Fields Numeral)} : lineText line = [] ↔ line = [] := by
  constructor
  · intro h
    by_contra hne
    have hsplit := splitOn_lineText hne
    rw [h, List.splitOn_nil] at hsplit
    obtain ⟨f, hf⟩ := List.exists_mem_of_ne_nil line hne
    have hmem := List.mem_map_of_mem (f := Fields.text) hf
    rw [← hsplit, List.mem_singleton] at hmem
    exact f.text_ne_nil hmem
  · rintro rfl
    rfl

/-- **The segments of the text of some lines are those of the lines.** -/
theorem map_units_all_text (lines : List (List (Fields Numeral))) :
    (Segment.all (text lines)).map (fun s => (s.line, s.units)) =
      (segments lines).map fun s => (s.1, s.2.text) := by
  by_cases hne : lines = []
  · rw [hne]
    rfl
  · rw [Segment.map_units_all, splitOn_text hne, List.zipIdx_map, List.flatMap_map, segments,
      List.map_flatMap]
    congr 1
    funext ⟨line, number⟩
    show (if lineText line = [] then [] else _) = _
    by_cases hline : line = []
    · rw [if_pos (lineText_eq_nil_iff.mpr hline), hline]
      rfl
    · rw [if_neg (mt lineText_eq_nil_iff.mp hline)]
      show ((lineText line).splitOn comma).map _ = _
      rw [splitOn_lineText hline, List.map_map, List.map_map]
      rfl

/-- **A text whose segments are fields is the text of some lines.** -/
theorem exists_lines_of_all {p : Fields Numeral → Prop} {t : Text}
    (h : ∀ s ∈ Segment.all t, ∃ f : Fields Numeral, p f ∧ f.text = s.units) :
    ∃ lines : List (List (Fields Numeral)), (∀ line ∈ lines, ∀ f ∈ line, p f) ∧ t = text lines := by
  have hline : ∀ line ∈ t.splitOn semicolon,
      ∃ fs : List (Fields Numeral), (∀ f ∈ fs, p f) ∧ lineText fs = line := by
    intro line hmem
    by_cases hnil : line = []
    · exact ⟨[], by simp, hnil.symm⟩
    · obtain ⟨number, hnumber⟩ := List.mem_iff_getElem?.mp hmem
      have hpart : ∀ part ∈ line.splitOn comma, ∃ f : Fields Numeral, p f ∧ f.text = part := by
        intro part hpart
        have hsegment : (number, part) ∈ (Segment.all t).map fun s => (s.line, s.units) := by
          rw [Segment.map_units_all]
          refine List.mem_flatMap.mpr
            ⟨(line, number), List.mem_zipIdx_iff_getElem?.mpr hnumber, ?_⟩
          show _ ∈ if line = [] then [] else _
          rw [if_neg hnil]
          exact List.mem_map_of_mem hpart
        obtain ⟨s, hs, heq⟩ := List.mem_map.mp hsegment
        obtain ⟨f, hf, htext⟩ := h s hs
        exact ⟨f, hf, htext.trans (Prod.mk.inj heq).2⟩
      obtain ⟨fs, hfs, hmap⟩ := exists_map_eq hpart
      refine ⟨fs, hfs, ?_⟩
      rw [lineText, hmap]
      exact List.intercalate_splitOn comma
  obtain ⟨lines, hlines, hmap⟩ := exists_map_eq hline
  refine ⟨lines, hlines, ?_⟩
  rw [text, hmap]
  exact (List.intercalate_splitOn semicolon).symm

end Lines

end Provenance
