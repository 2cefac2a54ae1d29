/-
# What is written

The text of a table is that of lines: each entry is a segment, whose fields are numerals for the
differences from the values written before.  A table has a text if no entry is on an earlier line
than the one before it; it is written if there is room for all of it.

The main facts:

* `writeSegment_text` : the segment of an entry in terms of its differences;
* `exists_hasText_cursor`, `exists_hasText` : the text of a table is that of the lines of its segments;
* `ascending_of_encode` : when a table has no text.
-/
import Mathlib.Data.List.Chain
import Provenance.Mapping.Encode
import Provenance.Proofs.Mapping.Natural

namespace Provenance

open Vlq (Numeral comma semicolon)

/-! ## Counts -/

namespace Number

theorem toCount_natCast (n : Nat) : (n : Number).toCount = n := by
  show (truncate ((n : Int) : Rat)).toNat = n
  rw [truncate_intCast, Int.toNat_natCast]

/-- Two values are the same if neither is less than the other. -/
theorem eq_of_not_lt {x y : Number} (hx : x ≠ nan) (hy : y ≠ nan) (hxy : ¬ x < y) (hyx : ¬ y < x) :
    x = y := by
  cases x <;> cases y
  case finite.finite p q =>
    have hpq : ¬ p < q := fun h => hxy (decide_eq_true h)
    have hqp : ¬ q < p := fun h => hyx (decide_eq_true h)
    rw [Rat.le_antisymm (Rat.not_lt.mp hqp) (Rat.not_lt.mp hpq)]
  all_goals first
    | rfl
    | exact absurd rfl hx
    | exact absurd rfl hy
    | exact absurd rfl hxy
    | exact absurd rfl hyx

end Number

/-! ## The text of lines -/

namespace Lines

theorem text_cons_cons (line next : List (Fields Numeral)) (rest : List (List (Fields Numeral))) :
    text (line :: next :: rest) = lineText line ++ semicolon :: text (next :: rest) := by
  rw [text, List.map_cons, List.map_cons, Text.join, List.intercalate_cons_cons, List.append_assoc]
  rfl

/-- Lines without segments are line ends. -/
theorem text_gap (line next : List (Fields Numeral)) (rest : List (List (Fields Numeral)))
    (gap : Nat) :
    text (line :: (List.replicate gap [] ++ next :: rest)) =
      lineText line ++ List.replicate (gap + 1) semicolon ++ text (next :: rest) := by
  induction gap generalizing line with
  | zero =>
    rw [List.replicate_zero, List.nil_append, text_cons_cons, List.append_assoc]
    rfl
  | succ gap ih =>
    rw [List.replicate_succ, List.cons_append, text_cons_cons, ih, List.replicate_succ,
      List.append_assoc, List.append_assoc]
    rfl

theorem lineText_cons (f : Fields Numeral) {line : List (Fields Numeral)} (h : line ≠ []) :
    lineText (f :: line) = f.text ++ comma :: lineText line := by
  obtain ⟨next, rest, rfl⟩ := List.exists_cons_of_ne_nil h
  rw [lineText, List.map_cons, List.map_cons, Text.join, List.intercalate_cons_cons,
    List.append_assoc]
  rfl

theorem lineText_singleton (f : Fields Numeral) : lineText [f] = f.text := by
  rw [lineText, List.map_singleton, Text.join, List.intercalate_singleton]

/-- A segment is put behind those of a line, with a comma if there are any. -/
theorem lineText_concat (line : List (Fields Numeral)) (f : Fields Numeral) :
    lineText (line ++ [f]) = lineText line ++ ((if line = [] then [] else [comma]) ++ f.text) := by
  induction line with
  | nil => exact lineText_singleton f
  | cons first rest ih =>
    rw [if_neg (List.cons_ne_nil first rest), List.cons_append, lineText_cons first (by simp), ih]
    split
    · rename_i hrest
      rw [hrest, lineText_singleton]
      rfl
    · rename_i hrest
      rw [lineText_cons first hrest, List.append_assoc]
      rfl

/-- The segments of lines that are numbered from a first line on. -/
def segmentsFrom {α : Type} (first : Nat) (lines : List (List α)) : List (Nat × α) :=
  (lines.zipIdx first).flatMap fun (line, number) => line.map fun f => (number, f)

theorem segments_eq {α : Type} (lines : List (List α)) :
    segments lines = segmentsFrom 0 lines := rfl

theorem segmentsFrom_cons {α : Type} (first : Nat) (line : List α) (rest : List (List α)) :
    segmentsFrom first (line :: rest) =
      line.map (fun f => (first, f)) ++ segmentsFrom (first + 1) rest := by
  rw [segmentsFrom, List.zipIdx_cons, List.flatMap_cons]
  rfl

theorem segmentsFrom_gap {α : Type} (first gap : Nat) (rest : List (List α)) :
    segmentsFrom first (List.replicate gap [] ++ rest) = segmentsFrom (first + gap) rest := by
  induction gap generalizing first with
  | zero => rfl
  | succ gap ih =>
    rw [List.replicate_succ, List.cons_append, segmentsFrom_cons, ih, List.map_nil, List.nil_append,
      Nat.add_assoc, Nat.add_comm 1 gap]

/-- A text goes on with a line, of which `line` has been written, and with further lines; their new
segments are given. -/
def Continues (number : Nat) (line : List (Fields Numeral)) (xs : List (Nat × Fields Numeral))
    (t : Text) : Prop :=
  ∃ more others, lineText line ++ t = text ((line ++ more) :: others) ∧
    more.map (fun f => (number, f)) ++ segmentsFrom (number + 1) others = xs

variable {number : Nat} {line : List (Fields Numeral)} {xs : List (Nat × Fields Numeral)} {t : Text}
  {f : Fields Numeral}

theorem continues_nil : Continues number line [] [] := by
  refine ⟨[], [], ?_, rfl⟩
  rw [List.append_nil, List.append_nil, text, List.map_singleton, Text.join,
    List.intercalate_singleton]

/-- A segment goes on with the line. -/
theorem Continues.segment (h : Continues number (line ++ [f]) xs t) :
    Continues number line ((number, f) :: xs)
      ((if line = [] then [] else [comma]) ++ f.text ++ t) := by
  obtain ⟨more, others, htext, rfl⟩ := h
  refine ⟨f :: more, others, ?_, rfl⟩
  rw [← List.append_assoc, ← lineText_concat, htext, List.append_assoc]
  rfl

/-- A segment is the first one of a later line. -/
theorem Continues.gap {gap : Nat} (h : Continues (number + 1 + gap) [f] xs t) :
    Continues number line ((number + 1 + gap, f) :: xs)
      (List.replicate (gap + 1) semicolon ++ (f.text ++ t)) := by
  obtain ⟨more, others, htext, rfl⟩ := h
  refine ⟨[], List.replicate gap [] ++ (f :: more) :: others, ?_, ?_⟩
  · rw [lineText_singleton] at htext
    rw [List.append_nil, text_gap, htext, List.append_assoc]
    rfl
  · rw [List.map_nil, List.nil_append, segmentsFrom_gap, segmentsFrom_cons]
    rfl

end Lines

namespace MappingTable

namespace Cursor

/-! ## One entry -/

/-- The value of a kind that the next entry is written against. -/
def get (c : Cursor) : MappingField → Number
  | .generatedColumn => c.column
  | .source => c.source
  | .originLine => c.originLine
  | .originColumn => c.originColumn
  | .name => c.name

/-- The cursor on a line: on a new one the generated column starts over. -/
def enter (c : Cursor) (line : Number) : Cursor :=
  if line = c.line then c else { c with line := line, begun := false, column := 0 }

/-- The fields written for an entry on the cursor's line: the differences from the cursor's values.
-/
def deltas (c : Cursor) (m : Mapping) : Fields Number where
  column := delta m.column c.column
  origin := m.origin.map fun o => ⟨delta o.source c.source, delta o.line c.originLine,
    delta o.column c.originColumn, o.name.map (delta · c.name)⟩

/-- The cursor after an entry on its line. -/
def after (c : Cursor) (m : Mapping) : Cursor := (c.writeSegment m).2

/-- The segments of entries that follow a cursor, each with its line. -/
def written (c : Cursor) : MappingTable → List (Nat × Fields Numeral)
  | [] => []
  | m :: rest =>
    (m.place.line, ((c.enter m.line).deltas m).map Numeral.ofNumber) ::
      ((c.enter m.line).after m).written rest

theorem get_enter (c : Cursor) (line : Number) (k : MappingField) :
    (c.enter line).get k = if k = .generatedColumn ∧ line ≠ c.line then 0 else c.get k := by
  unfold enter
  by_cases hline : line = c.line
  · rw [if_pos hline, if_neg fun h => h.2 hline]
  · rw [if_neg hline]
    cases k with
    | generatedColumn =>
      rw [if_pos ⟨rfl, hline⟩]
      rfl
    | _ =>
      rw [if_neg (by simp)]
      rfl

theorem get_after (c : Cursor) (m : Mapping) (k : MappingField) :
    (c.after m).get k = (m.fields.get? k).getD (c.get k) := by
  obtain ⟨line, column, _ | ⟨s, l, oc, _ | n⟩⟩ := m <;> cases k <;> rfl

theorem get?_deltas (c : Cursor) (m : Mapping) (k : MappingField) :
    (c.deltas m).get? k = (m.fields.get? k).map fun x => delta x (c.get k) := by
  obtain ⟨line, column, _ | ⟨s, l, oc, _ | n⟩⟩ := m <;> cases k <;> rfl

@[simp] theorem line_after (c : Cursor) (m : Mapping) : (c.after m).line = c.line := by
  obtain ⟨line, column, _ | ⟨s, l, oc, _ | n⟩⟩ := m <;> rfl

@[simp] theorem begun_after (c : Cursor) (m : Mapping) : (c.after m).begun = true := by
  obtain ⟨line, column, _ | ⟨s, l, oc, _ | n⟩⟩ := m <;> rfl

@[simp] theorem line_enter (c : Cursor) (line : Number) : (c.enter line).line = line := by
  unfold enter
  split
  · rename_i h
    exact h.symm
  · rfl

/-- **The segment of an entry.**  Its fields are numerals for the differences. -/
theorem writeSegment_text (c : Cursor) (m : Mapping) :
    (c.writeSegment m).1 =
      (if c.begun then [comma] else []) ++ ((c.deltas m).map Numeral.ofNumber).text := by
  obtain ⟨line, column, _ | ⟨s, l, oc, _ | n⟩⟩ := m <;>
    simp [writeSegment, writeLocation, deltas, Fields.map, Fields.text, Numeral.text_ofNumber]

/-- The numerals of written segments are short. -/
theorem short_of_mem_written {c : Cursor} {table : MappingTable} {s : Nat × Fields Numeral}
    (h : s ∈ c.written table) : ∀ n ∈ s.2.toList, n.Short := by
  induction table generalizing c with
  | nil => cases h
  | cons m rest ih =>
    rcases List.mem_cons.mp h with rfl | h
    · intro n hn
      rw [Fields.toList_map] at hn
      obtain ⟨x, -, rfl⟩ := List.mem_map.mp hn
      exact Numeral.short_ofNumber x
    · exact ih h

/-! ## Line ends -/

/-- The number of line ends between two lines, if there is room for them.  Distances that are rounded leave no room
in any text. -/
theorem lineGap_natCast {room n l : Nat} (h : n ≤ l) (hroom : room ≤ Text.maxLength) :
    lineGap room (l : Number) (n : Number) =
      if l - n ≤ room then .ok (l - n) else .error .textTooLong := by
  have hmax : Text.maxLength < 0x1FFFFFFFFFFFFF := by decide
  have hlimit : Number.exactLimit = 0x1FFFFFFFFFFFFF + 1 := by decide
  rw [lineGap, if_neg (by simp), Number.natCast_sub_natCast h]
  rcases Number.rounded_natCast_cases (l - n) with ⟨-, hgap⟩ | ⟨hle, hgap | ⟨gap, hgap', hgap⟩⟩
  · rw [hgap, Number.toCount_natCast]
  · have hcount : Number.posInf.toCount = 0x1FFFFFFFFFFFFF := rfl
    rw [hgap, if_neg (by omega), if_neg (by omega)]
  · rw [hgap, Number.toCount_natCast, if_neg (by omega), if_neg (by omega)]

/-- From a line to one that is not before it, as many line ends are written as lead there, if there is
room for them. -/
theorem toLine_eq {c : Cursor} {m : Mapping} {room n : Nat} (hc : c.line = (n : Number))
    (hm : m.Natural) (hle : n ≤ m.place.line) (hroom : room ≤ Text.maxLength) :
    c.toLine room m =
      if m.place.line - n ≤ room then
        .ok (m.place.line - n, c.enter m.line)
      else .error .textTooLong := by
  rw [toLine, enter, hc, hm.placed.line, if_neg (by rw [Number.natCast_lt]; omega)]
  rcases Nat.eq_or_lt_of_le hle with heq | hlt
  · rw [heq, if_neg (by rw [Number.natCast_lt]; omega), if_pos (by omega), if_pos rfl, Nat.sub_self]
  · have hne : (m.place.line : Number) ≠ (n : Number) := by
      rw [Ne, Number.natCast_inj]
      omega
    rw [if_pos (Number.natCast_lt.mpr hlt), if_neg hne, lineGap_natCast hle hroom]
    split <;> rfl

end Cursor

/-! ## Tables in the order of their lines -/

/-- No entry is on an earlier line than the one before it, and the first one not before line 0. -/
def Ascending (table : MappingTable) : Prop :=
  ((0 : Number) :: table.map Mapping.line).IsChain fun a b => ¬ b < a

instance (table : MappingTable) : Decidable table.Ascending :=
  inferInstanceAs (Decidable (List.IsChain _ _))

variable {table : MappingTable} {c : Cursor}

theorem ascending_iff (h : ∀ m ∈ table, m.Natural) :
    table.Ascending ↔ (0 :: table.map fun m => m.place.line).IsChain (· ≤ ·) := by
  have hmap : table.map Mapping.line =
      (table.map fun m => m.place.line).map fun n : Nat => (n : Number) := by
    rw [List.map_map]
    exact List.map_congr_left fun m hm => (h m hm).placed.line
  rw [Ascending, hmap, Number.ofNat_eq_natCast, List.isChain_cons_map fun n : Nat => (n : Number)]
  exact List.IsChain.iff fun a b => by rw [Number.natCast_lt, Nat.not_lt]

/-- An entry is written if there is room for it, then those that follow it. -/
theorem encodeFrom_cons (room : Nat) (c : Cursor) (m : Mapping) (table : MappingTable) :
    encodeFrom room c (m :: table) =
      (c.toLine room m >>= fun x =>
        if room < x.1 + (x.2.writeSegment m).1.length then .error .textTooLong
        else
          encodeFrom (room - (x.1 + (x.2.writeSegment m).1.length)) (x.2.after m) table >>= fun t =>
            .ok (List.replicate x.1 semicolon ++ (x.2.writeSegment m).1 ++ t)) := rfl

/-- The entries that follow a cursor have the text `t`: it is written wherever there is room for it.
-/
def Cursor.HasText (c : Cursor) (table : MappingTable) (t : Text) : Prop :=
  ∀ room ≤ Text.maxLength, encodeFrom room c table = if t.length ≤ room then .ok t else .error .textTooLong

/-- A table has the text `t`: it is written wherever there is room for it. -/
def HasText (table : MappingTable) (t : Text) : Prop :=
  ∀ room ≤ Text.maxLength,
    encodeWithin room table = if t.length ≤ room then .ok t else .error .textTooLong

theorem Cursor.hasText_nil (c : Cursor) : c.HasText [] [] := fun room _ =>
  (if_pos (Nat.zero_le room)).symm

/-- An entry on a later line, or on the cursor's line, comes before the text of those that follow. -/
theorem Cursor.HasText.cons {m : Mapping} {n : Nat} {t : Text} (hc : c.line = (n : Number))
    (hm : m.Natural) (hle : n ≤ m.place.line) (h : ((c.enter m.line).after m).HasText table t) :
    c.HasText (m :: table) (List.replicate (m.place.line - n) semicolon ++
      ((c.enter m.line).writeSegment m).1 ++ t) := by
  intro room hmax
  rw [encodeFrom_cons, Cursor.toLine_eq hc hm hle hmax]
  generalize m.place.line - n = gap
  have hwhole : (List.replicate gap semicolon ++ ((c.enter m.line).writeSegment m).1 ++ t).length =
      gap + ((c.enter m.line).writeSegment m).1.length + t.length := by
    rw [List.length_append, List.length_append, List.length_replicate]
  rw [hwhole]
  by_cases hfits : gap ≤ room
  · rw [if_pos hfits]
    show (if room < gap + ((c.enter m.line).writeSegment m).1.length then _ else _) = _
    generalize ((c.enter m.line).writeSegment m).1 = segment
    by_cases hroom : room < gap + segment.length
    · rw [if_pos hroom, if_neg (by omega)]
    · rw [if_neg hroom, h (room - (gap + segment.length)) (Nat.le_trans (Nat.sub_le _ _) hmax)]
      by_cases ht : t.length ≤ room - (gap + segment.length)
      · rw [if_pos ht, if_pos (by omega)]
        rfl
      · rw [if_neg ht, if_neg (by omega)]
        rfl
  · rw [if_neg hfits, if_neg (by omega)]
    rfl

/-- A table is encoded unless its text is too long. -/
theorem HasText.encode_eq {t : Text} (h : table.HasText t) :
    encode table = if t.length ≤ Text.maxLength then .ok t else .error .textTooLong :=
  h Text.maxLength (Nat.le_refl _)

/-- Texts of one table are too long alike. -/
theorem HasText.length_le_iff {t t' : Text} (h : table.HasText t) (h' : table.HasText t') :
    t.length ≤ Text.maxLength ↔ t'.length ≤ Text.maxLength := by
  have hencode := h.encode_eq.symm.trans h'.encode_eq
  split at hencode <;> split at hencode
  · exact iff_of_true ‹_› ‹_›
  · cases hencode
  · cases hencode
  · exact iff_of_false ‹_› ‹_›

/-- A table that is encoded has no text but the one that is written. -/
theorem HasText.eq_of_encode {t t' : Text} (h : table.HasText t) (hencode : encode table = .ok t') :
    t = t' := by
  rw [h.encode_eq] at hencode
  split at hencode
  · exact Except.ok.inj hencode
  · cases hencode

/-- **The text of entries that follow a cursor.**  It goes on with the line that the cursor is on,
and has the segments of the entries. -/
theorem exists_hasText_cursor {n : Nat} {line : List (Fields Numeral)} (hc : c.line = (n : Number))
    (hbegun : c.begun = true ↔ line ≠ []) (hnatural : ∀ m ∈ table, m.Natural)
    (hlines : (n :: table.map fun m => m.place.line).IsChain (· ≤ ·)) :
    ∃ t, c.HasText table t ∧ Lines.Continues n line (c.written table) t := by
  induction table generalizing c n line with
  | nil => exact ⟨[], c.hasText_nil, Lines.continues_nil⟩
  | cons m rest ih =>
    obtain ⟨hm, hrest⟩ := List.forall_mem_cons.mp hnatural
    rw [List.map_cons, List.isChain_cons_cons] at hlines
    have hsegment := Cursor.writeSegment_text (c.enter m.line) m
    have hline : ((c.enter m.line).after m).line = (m.place.line : Number) := by
      rw [Cursor.line_after, Cursor.line_enter, hm.placed.line]
    have hbegun' : ∀ (before : List (Fields Numeral)) f,
        ((c.enter m.line).after m).begun = true ↔ before ++ [f] ≠ [] := by simp
    rw [Cursor.written]
    generalize ((c.enter m.line).deltas m).map Numeral.ofNumber = f at hsegment ⊢
    rcases Nat.eq_or_lt_of_le hlines.1 with heq | hlt
    · -- the segment goes on with the line
      have henter : c.enter m.line = c := by
        rw [Cursor.enter, if_pos (by rw [hc, hm.placed.line, heq])]
      have hcomma : (if c.begun then [comma] else []) = if line = [] then [] else [comma] := by
        by_cases hnil : line = []
        · rw [if_pos hnil, if_neg fun h => hbegun.mp h hnil]
        · rw [if_neg hnil, if_pos (hbegun.mpr hnil)]
      obtain ⟨t, ht, hcontinues⟩ := ih hline (hbegun' line f) hrest hlines.2
      refine ⟨_, ht.cons hc hm hlines.1, ?_⟩
      rw [← heq] at hcontinues ⊢
      rw [hsegment, henter, hcomma, Nat.sub_self, List.replicate_zero, List.nil_append]
      exact (henter ▸ hcontinues).segment
    · -- the segment is the first one of its line
      have henter : (c.enter m.line).begun = false := by
        rw [Cursor.enter, if_neg (by rw [hc, hm.placed.line, Number.natCast_inj]; omega)]
      obtain ⟨gap, hnumber⟩ : ∃ gap, m.place.line = n + 1 + gap :=
        ⟨m.place.line - (n + 1), by omega⟩
      obtain ⟨t, ht, hcontinues⟩ := ih hline (hbegun' [] f) hrest hlines.2
      refine ⟨_, ht.cons hc hm hlines.1, ?_⟩
      rw [hsegment, henter, if_neg Bool.false_ne_true, List.nil_append, List.append_assoc, hnumber,
        show n + 1 + gap - n = gap + 1 by omega]
      rw [hnumber] at hcontinues
      exact hcontinues.gap

/-- **The text of a table** is that of the lines of its segments, if no entry is on an earlier line
than the one before it. -/
theorem exists_hasText (hnatural : ∀ m ∈ table, m.Natural) (hlines : table.Ascending) :
    ∃ lines, table.HasText (Lines.text lines) ∧
      Lines.segments lines = Cursor.written {} table := by
  have hbegun : ({} : Cursor).begun = true ↔ ([] : List (Fields Numeral)) ≠ [] := by decide
  obtain ⟨t, ht, more, others, htext, hsegments⟩ := exists_hasText_cursor (n := 0) rfl hbegun hnatural
    ((ascending_iff hnatural).mp hlines)
  obtain rfl : t = Lines.text (more :: others) := htext
  refine ⟨more :: others, ht, ?_⟩
  rw [Lines.segments_eq, Lines.segmentsFrom_cons]
  exact hsegments

/-! ## Tables without a text -/

/-- What moving on to the line of an entry says about it. -/
theorem Cursor.toLine_eq_ok {c' : Cursor} {m : Mapping} {room gap : Nat}
    (h : c.toLine room m = .ok (gap, c')) :
    ¬ m.line < c.line ∧ c'.line = if c.line < m.line then m.line else c.line := by
  unfold toLine at h
  split at h
  · cases h
  · rename_i hnot
    refine ⟨hnot, ?_⟩
    split at h
    · rename_i hlt
      obtain ⟨_, -, h⟩ := bind_eq_ok_iff.mp h
      rw [if_pos hlt, ← (Prod.mk.inj (Except.ok.inj h)).2]
    · rename_i hlt
      rw [if_neg hlt, (Prod.mk.inj (Except.ok.inj h)).2]

/-- Entries that have a text do not step back from the cursor's line, nor from each other. -/
theorem isChain_of_encodeFrom {room : Nat} {t : Text} (h : encodeFrom room c table = .ok t)
    (hc : c.line ≠ .nan) : (c.line :: table.map Mapping.line).IsChain fun a b => ¬ b < a := by
  induction table generalizing room c t with
  | nil => exact List.IsChain.singleton c.line
  | cons m rest ih =>
    rw [encodeFrom_cons] at h
    obtain ⟨⟨gap, c'⟩, hgap, h⟩ := bind_eq_ok_iff.mp h
    split at h
    · cases h
    obtain ⟨others, hothers, -⟩ := bind_eq_ok_iff.mp h
    obtain ⟨hnot, hline⟩ := Cursor.toLine_eq_ok hgap
    have hafter : (c'.after m).line = if c.line < m.line then m.line else c.line :=
      (Cursor.line_after c' m).trans hline
    rw [List.map_cons, List.isChain_cons_cons]
    refine ⟨hnot, ?_⟩
    by_cases hnan : m.line = .nan
    · rw [hnan, if_neg (Number.not_lt_nan _)] at hafter
      have hrest := ih hothers (by rw [hafter]; exact hc)
      rw [hnan]
      exact hrest.imp_head fun _ => Number.not_lt_nan _
    · have hm : (c'.after m).line = m.line := by
        rw [hafter]
        split
        · rfl
        · rename_i hlt
          exact Number.eq_of_not_lt hc hnan hlt hnot
      have hrest := ih hothers (by rw [hm]; exact hnan)
      rwa [hm] at hrest

/-- A table has a text only if no entry is on an earlier line than the one before it. -/
theorem ascending_of_encode {t : Text} (h : encode table = .ok t) : table.Ascending :=
  isChain_of_encodeFrom h (by decide)

end MappingTable

end Provenance
