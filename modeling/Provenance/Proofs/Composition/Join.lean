/-
# Origins in joined results

An offset of a joined result comes from where its own part says.  There is one exception: where a part
starts a line and does not map that start, an entry at the very end of the parts before it goes on
over the first line of the part.

The main facts:

* `shift_eq_add` : entries are moved as by rounded sums;
* `joinFrom_spec` : the entries of a joined result are the marks of its parts, moved;
* `join_proper` : joining proper results gives a proper result;
* `originAtOffset_join` : the origin of an offset inside a part.
-/
import Provenance.Composition.Join
import Provenance.Proofs.Composition.Origin
import Provenance.Proofs.Except

namespace Provenance

namespace Composition

/-! ## Merged tables -/

/-- A moved index has the text of the old one. -/
theorem get?_moveIndex (t : TextTable) {old : TextTable} {index : Number} {s : Text}
    (h : old.get? index = some s) :
    ∃ n, moveIndex (t.internAll old.texts).1 index = some n ∧
      (t.internAll old.texts).2.get? n = some s := by
  obtain ⟨i, hi, hs⟩ := Option.bind_eq_some_iff.mp h
  rcases getElem?_of_forall₂ (t.forall₂_internAll old.texts) i with ⟨hnone, -⟩ | ⟨s', n, hs', hn, hns⟩
  · rw [hs] at hnone
    cases hnone
  · obtain rfl : s = s' := Option.some.inj (hs.symm.trans hs')
    refine ⟨(n : Number), ?_, hns⟩
    rw [moveIndex, hi, Option.bind_some, hn, Option.map_some]

variable {sources names : TextTable} {c : Composition} {o : Location}

/-- A moved location is described by the merged tables as the old one was. -/
theorem moveLocation_spec (h : o.KnownIn c.sources.names c.names) :
    (moveLocation (sources.internAll c.sources.names.texts).1 (names.internAll c.names.texts).1 o).KnownIn
        (sources.internAll c.sources.names.texts).2 (names.internAll c.names.texts).2 ∧
      (moveLocation (sources.internAll c.sources.names.texts).1
          (names.internAll c.names.texts).1 o).describeIn
        (sources.internAll c.sources.names.texts).2 (names.internAll c.names.texts).2 =
          c.describe o := by
  obtain ⟨s, hs⟩ := Option.isSome_iff_exists.mp h.source
  obtain ⟨i, hi, his⟩ := get?_moveIndex sources hs
  unfold moveLocation describe Location.describeIn
  rw [hi]
  cases ho : o.name with
  | none =>
    refine ⟨⟨by simp [his], by simp⟩, ?_⟩
    simp [his, hs]
  | some n =>
    obtain ⟨t, ht⟩ := Option.isSome_iff_exists.mp (h.name n ho)
    obtain ⟨j, hj, hjt⟩ := get?_moveIndex names ht
    refine ⟨⟨by simp [his], by simp [hj, hjt]⟩, ?_⟩
    simp [his, hs, hj, hjt, ht]

/-! ## Moved entries -/

/-- Below 2^53 an entry is put behind a text by rounded sums. -/
theorem shift_eq_add {p : Text.Position} {m : Mapping} (h : m.Placed)
    (hline : m.place.line + p.line ≤ Number.exactLimit)
    (hcolumn : m.place.column + p.column ≤ Number.exactLimit) (sources names : List Nat) :
    shift p sources names m =
      { line := m.line + (p.line : Number)
        column := if m.line = 0 then m.column + (p.column : Number) else m.column
        origin := m.origin.map (moveLocation sources names) } := by
  unfold shift
  rw [h.line, h.column, Number.moved_natCast, Number.moved_natCast, Number.natCast_add_of_le hline,
    Number.natCast_add_of_le hcolumn]

/-- An entry that is put behind a text stands behind that text. -/
theorem shift_eq_entryAt (before : Text) {t : Text} (after : Text) {m : Mapping} (h : m.InText t)
    (sources names : List Nat) :
    shift before.stop sources names m =
      entryAt (before ++ t ++ after) (before.length + m.offsetIn t)
        (m.origin.map (moveLocation sources names)) := by
  have hle := h.offsetIn_le
  have hpos : (before ++ t ++ after).positionOf (before.length + m.offsetIn t) =
      before.stop.after (t.take (m.offsetIn t)) := by
    rw [Text.positionOf_eq_stop (by simp; omega), List.append_assoc, List.take_length_add_append,
      List.take_append_of_le_length hle, Text.stop_append]
  have hline : m.line = ((t.positionOf (m.offsetIn t)).line : Number) := by
    rw [h.placed.line, h.place_eq]
  have hcolumn : m.column = ((t.positionOf (m.offsetIn t)).column : Number) := by
    rw [h.placed.column, h.place_eq]
  unfold shift entryAt
  rw [hpos, Text.Position.after_eq, ← Text.positionOf_eq_stop hle, hline, hcolumn,
    Number.moved_natCast]
  simp only [Number.ofNat_eq_natCast, Number.natCast_inj]
  split <;> simp [Number.moved_natCast]

/-- The entries of a proper result that is put behind a text are its marks, moved. -/
theorem markedBy_shift (h : c.Proper) (before after : Text) :
    MarkedBy (before ++ c.text ++ after) (sources.internAll c.sources.names.texts).2
      (names.internAll c.names.texts).2
      (c.mappings.map (shift before.stop (sources.internAll c.sources.names.texts).1
        (names.internAll c.names.texts).1))
      (c.marks.map (Mark.move before.length)) := by
  have hlength : ∀ m ∈ c.mappings,
      before.length + m.offsetIn c.text ≤ (before ++ c.text ++ after).length := by
    intro m hm
    have := (h.inText m hm).offsetIn_le
    simp only [List.length_append]
    omega
  constructor
  · intro m hm
    obtain ⟨own, hown, rfl⟩ := List.mem_map.mp hm
    rw [shift_eq_entryAt before after (h.inText own hown)]
    exact Mapping.inText_entryAt (hlength own hown) _
  · intro m hm o ho
    obtain ⟨own, hown, rfl⟩ := List.mem_map.mp hm
    obtain ⟨old, hold, rfl⟩ := Option.map_eq_some_iff.mp ho
    exact (moveLocation_spec (h.known own hown old hold)).1
  · rw [marks, List.map_map, List.map_map]
    apply List.map_congr_left
    intro m hm
    simp only [Function.comp_apply]
    rw [shift_eq_entryAt before after (h.inText m hm), Mapping.markIn_entryAt (hlength m hm)]
    unfold Mark.move Mapping.markIn
    cases ho : m.origin with
    | none => rfl
    | some o => simp [(moveLocation_spec (h.known m hm o ho)).2]

/-! ## The marks of a joined result -/

/-- The mark that ends the range of the last mark before the end of a text, unless a line starts
there. -/
def boundaryMarks (before : Text) : List Mark :=
  if 0 < before.stop.column then [⟨before.length, none⟩] else []

/-- The marks of results that are put behind a text. -/
def joinMarks (before : Text) : List Composition → List Mark
  | [] => []
  | c :: rest =>
    boundaryMarks before ++ c.marks.map (Mark.move before.length) ++
      joinMarks (before ++ c.text) rest

theorem markedBy_boundary (sources names : TextTable) (before after : Text) :
    MarkedBy (before ++ after) sources names (boundary before.stop) (boundaryMarks before) := by
  unfold boundary boundaryMarks
  split
  · have h : MarkedBy (before ++ after) sources names
        [entryAt (before ++ after) before.length none] [⟨before.length, none⟩] :=
      .entryAt (by simp) (by simp)
    rwa [entryAt, Text.positionOf_append] at h
  · exact .nil

theorem joinMarks_append (before : Text) (cs ds : List Composition) :
    joinMarks before (cs ++ ds) =
      joinMarks before cs ++ joinMarks (before ++ cs.flatMap Composition.text) ds := by
  induction cs generalizing before with
  | nil => simp [joinMarks]
  | cons c rest ih => simp [joinMarks, ih, List.append_assoc]

/-- **The entries of joined results are the marks of the parts, moved.**  The merged tables keep what
was in the tables before. -/
theorem joinFrom_spec {cs : List Composition} (hcs : ∀ c ∈ cs, c.Proper) (joint : Joint)
    {before : Text} (hpos : joint.position = before.stop) :
    MarkedBy (before ++ cs.flatMap Composition.text) (joinFrom joint cs).2.1.names
        (joinFrom joint cs).2.2 (joinFrom joint cs).1 (joinMarks before cs) ∧
      (joinFrom joint cs).2.1.names.Extends joint.sources.names ∧
      (joinFrom joint cs).2.2.Extends joint.names := by
  -- by induction on the parts; `before` is the text of those that are joined already
  induction cs generalizing joint before with
  | nil => exact ⟨.nil, .refl _, .refl _⟩
  | cons c rest ih =>
    obtain ⟨hc, hrest⟩ := List.forall_mem_cons.mp hcs
    obtain ⟨hmerged, hindices⟩ := joint.sources.names_internAll c.sources.entries
    have hnext : joint.position.after c.text = (before ++ c.text).stop := by
      rw [hpos, Text.stop_append]
    obtain ⟨hothers, hsources, hnames⟩ := ih hrest
      ⟨joint.position.after c.text, (joint.sources.internAll c.sources.entries).2,
        (joint.names.internAll c.names.texts).2⟩ hnext
    rw [hmerged] at hsources
    have hboundary := (markedBy_boundary
      (joint.sources.names.internAll c.sources.names.texts).2
      (joint.names.internAll c.names.texts).2 before
      (c.text ++ rest.flatMap Composition.text)).of_extends hsources hnames
    have hown := (markedBy_shift hc before (rest.flatMap Composition.text)).of_extends
      hsources hnames
    rw [List.append_assoc] at hown hothers
    simp only [joinFrom, joinMarks, hindices, List.flatMap_cons]
    rw [hpos] at *
    exact ⟨(hboundary.append hown).append hothers, hsources.trans (TextTable.extends_internAll _ _),
      hnames.trans (TextTable.extends_internAll _ _)⟩

theorem markedBy_join {cs : List Composition} (hcs : ∀ c ∈ cs, c.Proper) :
    MarkedBy (join cs).text (join cs).sources.names (join cs).names (joinFrom {} cs).1
      (joinMarks [] cs) := by
  have hstart : (⟨0, 0⟩ : Text.Position) = Text.stop [] := rfl
  exact (joinFrom_spec hcs {} hstart).1

/-- Joining proper results gives a proper result. -/
theorem join_proper {cs : List Composition} (hcs : ∀ c ∈ cs, c.Proper) : (join cs).Proper :=
  proper_of_normalForm rfl (markedBy_join hcs)

/-- The mark at a boundary stands at the end of the text before it and has no origin. -/
theorem eq_of_mem_boundaryMarks {before : Text} {m : Mark} (h : m ∈ boundaryMarks before) :
    m = ⟨before.length, none⟩ := by
  unfold boundaryMarks at h
  split at h
  · exact List.mem_singleton.mp h
  · cases h

/-- The marks of parts stand in the parts. -/
theorem offset_joinMarks {cs : List Composition} (hcs : ∀ c ∈ cs, c.Proper) {before : Text} :
    ∀ m ∈ joinMarks before cs, before.length ≤ m.offset ∧
      m.offset ≤ (before ++ cs.flatMap Composition.text).length := by
  induction cs generalizing before with
  | nil => simp [joinMarks]
  | cons c rest ih =>
    obtain ⟨hc, hrest⟩ := List.forall_mem_cons.mp hcs
    intro m hm
    simp only [joinMarks, List.mem_append, or_assoc] at hm
    simp only [List.flatMap_cons, List.length_append]
    rcases hm with hm | hm | hm
    · rw [eq_of_mem_boundaryMarks hm]
      refine ⟨Nat.le_refl _, ?_⟩
      show before.length ≤ _
      omega
    · obtain ⟨own, hown, rfl⟩ := List.mem_map.mp hm
      have := hc.offset_le own hown
      simp only [Mark.move]
      omega
    · have hm := ih hrest m hm
      simp only [List.length_append] at hm
      omega

/-- The marks of parts stand in the joined text. -/
theorem offset_joinMarks_le {cs : List Composition} (hcs : ∀ c ∈ cs, c.Proper) :
    ∀ m ∈ joinMarks [] cs, m.offset ≤ (join cs).text.length := by
  intro m hm
  simpa [text_join] using (offset_joinMarks hcs m hm).2

/-- A mark of joined results with an origin is a mark of one of them. -/
theorem exists_of_mem_joinMarks {cs : List Composition} {before : Text} {m : Mark}
    {o : OriginPosition} (hm : m ∈ joinMarks before cs) (ho : m.origin = some o) :
    ∃ first c rest, cs = first ++ c :: rest ∧
      ∃ own ∈ c.marks, m = own.move (before ++ first.flatMap Composition.text).length := by
  induction cs generalizing before with
  | nil => cases hm
  | cons c rest ih =>
    simp only [joinMarks, List.mem_append, or_assoc] at hm
    rcases hm with hm | hm | hm
    · rw [eq_of_mem_boundaryMarks hm] at ho
      cases ho
    · obtain ⟨own, hown, rfl⟩ := List.mem_map.mp hm
      exact ⟨[], c, rest, rfl, own, hown, by simp⟩
    · obtain ⟨first, d, others, rfl, own, hown, rfl⟩ := ih hm
      exact ⟨c :: first, d, others, rfl, own, hown, by
        rw [List.flatMap_cons, List.append_assoc]⟩

/-- The marks of joined results around a part. -/
theorem joinMarks_around (before after : List Composition) (c : Composition) :
    joinMarks [] (before ++ c :: after) =
      joinMarks [] before ++ boundaryMarks (join before).text ++
        c.marks.map (Mark.move (join before).text.length) ++
          joinMarks ((join before).text ++ c.text) after := by
  rw [joinMarks_append, joinMarks, List.nil_append]
  simp only [text_join, List.append_assoc]

theorem text_join_around (before after : List Composition) (c : Composition) :
    (join (before ++ c :: after)).text = (join before).text ++ c.text ++ (join after).text := by
  simp only [text_join, List.flatMap_append, List.flatMap_cons, List.append_assoc]

/-! ## Offsets inside a part -/

/-- The end of a text falls to the mark at the boundary, if there is one. -/
theorem governing?_boundary {t : Text} {marks : List Mark} (h : ∀ m ∈ marks, m.offset ≤ t.length) :
    Mark.governing? t (marks ++ boundaryMarks t) t.length =
      (boundaryMarks t).head?.or (Mark.governing? t marks t.length) := by
  have hsingle : Mark.governing? t (boundaryMarks t) t.length = (boundaryMarks t).head? := by
    unfold boundaryMarks
    split
    · simp [Mark.governing?, latest, Text.onLine]
    · rfl
  rw [← hsingle]
  apply latest_append_of_le
  intro a ha b hb _ _
  rw [eq_of_mem_boundaryMarks hb]
  exact h a ha

/-- The mark that an offset of a part falls to: one of the part's own if there is one, and otherwise
the one that the end of the text before it falls to. -/
theorem governing?_join {before after : List Composition} {c : Composition} {p : Nat}
    (hcs : ∀ d ∈ before ++ c :: after, d.Proper) (hp : p < c.text.length) :
    Mark.governing? (join (before ++ c :: after)).text (joinMarks [] (before ++ c :: after))
        ((join before).text.length + p) =
      ((Mark.governing? c.text c.marks p).map (Mark.move (join before).text.length)).or
        (if c.text.onLine 0 p then
          (boundaryMarks (join before).text).head?.or
            (Mark.governing? (join before).text (joinMarks [] before) (join before).text.length)
        else none) := by
  have hbefore : ∀ d ∈ before, d.Proper := fun d hd => hcs d (by simp [hd])
  have hafter : ∀ d ∈ after, d.Proper := fun d hd => hcs d (by simp [hd])
  have hends := offset_joinMarks_le hbefore
  have hlater : ∀ m ∈ joinMarks ((join before).text ++ c.text) after,
      (join before).text.length + c.text.length ≤ m.offset := by
    intro m hm
    have := (offset_joinMarks hafter m hm).1
    simpa using this
  rw [joinMarks_around, text_join_around]
  generalize (join before).text = t at *
  have hfirst : ∀ m ∈ joinMarks [] before ++ boundaryMarks t, m.offset ≤ t.length := by
    intro m hm
    rcases List.mem_append.mp hm with hm | hm
    · exact hends m hm
    · exact Nat.le_of_eq (congrArg Mark.offset (eq_of_mem_boundaryMarks hm))
  -- nothing behind the part counts
  have hnone : Mark.governing? (t ++ c.text ++ (join after).text)
      (joinMarks (t ++ c.text) after) (t.length + p) = none :=
    Mark.governing?_of_lt fun m hm =>
      Nat.lt_of_lt_of_le (Nat.add_lt_add_left hp t.length) (hlater m hm)
  -- what stands before the part counts only where the part has no mark
  have hsplit : Mark.governing? (t ++ c.text ++ (join after).text)
      (joinMarks [] before ++ boundaryMarks t ++ c.marks.map (Mark.move t.length)) (t.length + p) =
        (Mark.governing? (t ++ c.text ++ (join after).text) (c.marks.map (Mark.move t.length))
          (t.length + p)).or
        (Mark.governing? (t ++ c.text ++ (join after).text) (joinMarks [] before ++ boundaryMarks t)
          (t.length + p)) := by
    apply latest_append_of_le
    intro a ha b hb _ _
    obtain ⟨own, -, rfl⟩ := List.mem_map.mp hb
    have := hfirst a ha
    simp only [Mark.move]
    omega
  rw [Mark.governing?_append_right (Nat.le_of_lt hp),
    Mark.governing?_append_left (Nat.le_of_lt hp) hfirst, governing?_boundary hends] at hsplit
  rw [← hsplit]
  unfold Mark.governing? at hnone ⊢
  rw [latest_append, hnone, preferLater_none_right]

/-- Nothing of a part stands between an offset of it and the parts before: the part starts a line, the
offset is on that line, and no entry of the part stands at the offset or before it. -/
structure Uncovered (before : List Composition) (c : Composition) (offset : Nat) : Prop where
  startsLine : (join before).text = [] ∨ (join before).text.getLast? = some CodeUnit.newline
  firstLine : CodeUnit.newline ∉ c.text.take offset
  uncovered : c.mappings.find? ((c.text.positionOf offset).line : Number)
    ((c.text.positionOf offset).column : Number) = none

/-- The parts before a part go on over an offset of it: nothing of the part stands between, and the
parts before are mapped at their end. -/
structure Overrun (before : List Composition) (c : Composition) (offset : Nat) : Prop
    extends Uncovered before c offset where
  mapped : ((join before).originAtOffset (join before).text.length).isSome

variable {before after : List Composition} {p : Nat}

/-- The parts before a part go on over its first line as they would go on behind their end. -/
theorem originAtOffset_join_of_uncovered (hcs : ∀ d ∈ before ++ c :: after, d.Proper)
    (hp : p < c.text.length) (h : Uncovered before c p) :
    (join (before ++ c :: after)).originAtOffset ((join before).text.length + p) =
      (join before).originAt ((join before).text.countNewlines : Number) (p : Number) ∧
    ((join before).originAt ((join before).text.countNewlines : Number) (p : Number)).isSome =
      ((join before).originAtOffset (join before).text.length).isSome := by
  have hbefore : ∀ d ∈ before, d.Proper := fun d hd => hcs d (by simp [hd])
  have hlength : (join before).text.length + p ≤ (join (before ++ c :: after)).text.length := by
    simp only [text_join, List.flatMap_append, List.flatMap_cons, List.length_append]
    omega
  have hunmarked : Mark.governing? c.text c.marks p = none :=
    ((hcs c (by simp)).governing?_eq_none_iff (Nat.le_of_lt hp)).mpr h.uncovered
  have hline : c.text.onLine 0 p = true := Text.onLine_iff.mpr ⟨Nat.zero_le p, h.firstLine⟩
  have hstart := Text.stop_column_eq_zero.mpr h.startsLine
  have hno : boundaryMarks (join before).text = [] := by
    unfold boundaryMarks
    rw [if_neg (by omega)]
  have hbehind := originAt_stop_add rfl (markedBy_join hbefore) p
  have hsome := isSome_originAt_stop_add rfl (markedBy_join hbefore) p
  rw [hstart, Nat.zero_add, Text.stop_line] at hbehind hsome
  refine ⟨?_, hsome⟩
  rw [originAtOffset_of_normalForm rfl (markedBy_join hcs) hlength,
    hbehind, Mark.trace, governing?_join hcs hp, hunmarked, hline, hno]
  simp only [Option.map_none, Option.none_or, if_true, List.head?_nil]

/-- An offset of a part comes from where the part says, unless nothing of the part stands between it
and the parts before. -/
theorem originAtOffset_join_of_covered (hcs : ∀ d ∈ before ++ c :: after, d.Proper)
    (hp : p < c.text.length) (h : ¬ Uncovered before c p) :
    (join (before ++ c :: after)).originAtOffset ((join before).text.length + p) =
      c.originAtOffset p := by
  have hc : c.Proper := hcs c (by simp)
  have hlength : (join before).text.length + p ≤ (join (before ++ c :: after)).text.length := by
    simp only [text_join, List.flatMap_append, List.flatMap_cons, List.length_append]
    omega
  rw [originAtOffset_of_normalForm rfl (markedBy_join hcs) hlength,
    originAtOffset_eq_trace hc (Nat.le_of_lt hp)]
  unfold Mark.trace
  rw [governing?_join hcs hp]
  cases hm : Mark.governing? c.text c.marks p with
  | some m =>
    have hdistance : (join before).text.length + p - ((join before).text.length + m.offset) =
        p - m.offset := by omega
    simp [Mark.originOf, Mark.move, hdistance]
  | none =>
    rw [Option.map_none, Option.none_or, Option.bind_none]
    by_cases hline : c.text.onLine 0 p = true
    · -- the part does not start a line, and the mark at its start ends what goes before
      have hcolumn : 0 < (join before).text.stop.column := by
        by_contra hzero
        exact h ⟨Text.stop_column_eq_zero.mp (by omega), (Text.onLine_iff.mp hline).2,
          (hc.governing?_eq_none_iff (Nat.le_of_lt hp)).mp hm⟩
      rw [if_pos hline, boundaryMarks, if_pos hcolumn]
      rfl
    · rw [if_neg hline]
      rfl

/-- Where no entry of a part stands at an offset or before it, the part maps the offset to nothing. -/
theorem Uncovered.originAtOffset_eq_none (hc : c.Proper) (hp : p < c.text.length)
    (h : Uncovered before c p) : c.originAtOffset p = none := by
  rw [originAtOffset_eq_trace hc (Nat.le_of_lt hp), Mark.trace,
    (hc.governing?_eq_none_iff (Nat.le_of_lt hp)).mpr h.uncovered]
  rfl

/-- **An offset of a part comes from where the part says.**  The only exceptions are the offsets that
the parts before go on over: these come from where the parts before go on to behind their end, although
the part maps them to nothing. -/
theorem originAtOffset_join (hcs : ∀ d ∈ before ++ c :: after, d.Proper) (hp : p < c.text.length) :
    ((join (before ++ c :: after)).originAtOffset ((join before).text.length + p) =
        c.originAtOffset p ↔ ¬ Overrun before c p) ∧
      (Overrun before c p → c.originAtOffset p = none ∧
        (join (before ++ c :: after)).originAtOffset ((join before).text.length + p) =
          (join before).originAt ((join before).text.countNewlines : Number) (p : Number)) := by
  have hc : c.Proper := hcs c (by simp)
  refine ⟨⟨fun heq h => ?_, fun h => ?_⟩, fun h =>
    ⟨h.originAtOffset_eq_none hc hp, (originAtOffset_join_of_uncovered hcs hp h.toUncovered).1⟩⟩
  · obtain ⟨hover, hsome⟩ := originAtOffset_join_of_uncovered hcs hp h.toUncovered
    rw [← hover, heq, h.originAtOffset_eq_none hc hp, h.mapped] at hsome
    cases hsome
  · by_cases hu : Uncovered before c p
    · obtain ⟨hover, hsome⟩ := originAtOffset_join_of_uncovered hcs hp hu
      have hnone : ((join before).originAtOffset (join before).text.length).isSome = false :=
        Bool.eq_false_iff.mpr fun hmapped => h ⟨hu, hmapped⟩
      rw [hnone, Option.isSome_eq_false_iff, Option.isNone_iff_eq_none] at hsome
      rw [hover, hsome, hu.originAtOffset_eq_none hc hp]
    · exact originAtOffset_join_of_covered hcs hp hu

end Composition

end Provenance
