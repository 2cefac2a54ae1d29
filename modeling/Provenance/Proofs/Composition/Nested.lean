/-
# Nested joins

Results that are joined on their own first, and then with others, give what joining all of them at once
gives.  The inner join brings its entries into their normal form as if nothing stood before them; what is
different then are the marks at the ends of texts before them: behind a text that does not end a line,
each part starts with a mark that ends what goes on.

The main facts:

* `mappedBy?_joinMarks` : parts are marked behind a text as they are without it, if none without a text
  is mapped;
* `mappedBy?_end_of_lineStart` : where a line starts, nothing goes on over it, if no group of parts is
  mapped at its end;
* `join_nested` : nesting joins changes no result.
-/
import Provenance.Proofs.Composition.Canonical
import Provenance.Proofs.Contents

namespace Provenance

namespace Mark

variable {t before after : Text} {xs xs' ys marks : List Mark} {offset p : Nat}

@[simp] theorem offset_move (distance : Nat) (m : Mark) :
    (m.move distance).offset = distance + m.offset := rfl

@[simp] theorem origin_move (distance : Nat) (m : Mark) : (m.move distance).origin = m.origin := rfl

theorem move_move (a b : Nat) (m : Mark) : (m.move b).move a = m.move (a + b) := by
  simp [move, Nat.add_assoc]

theorem mappedBy?_eq_none_of_origin (h : ∀ m ∈ marks, m.origin = none) :
    mappedBy? t marks offset = none := by
  rw [mappedBy?, Option.filter_eq_none_iff]
  intro m hm
  simp [h m (mem_of_latest hm).1]

/-! ### Marks one after the other -/

/-- Later marks count where they can. -/
theorem mappedBy?_append (h : ∀ x ∈ xs, ∀ y ∈ ys, x.offset ≤ y.offset) :
    mappedBy? t (xs ++ ys) offset =
      ((governing? t ys offset).or (governing? t xs offset)).filter fun m => m.origin.isSome := by
  unfold mappedBy? governing?
  rw [latest_append_of_le fun x hx y hy _ _ => h x hx y hy]

/-- Marks in front that give no origin give none. -/
theorem mappedBy?_append_of_eq_none (h : ∀ x ∈ xs, ∀ y ∈ ys, x.offset ≤ y.offset)
    (hnone : mappedBy? t xs offset = none) :
    mappedBy? t (xs ++ ys) offset = mappedBy? t ys offset := by
  rw [mappedBy?_append h, mappedBy?]
  cases governing? t ys offset with
  | some m => rw [Option.some_or]
  | none => rw [Option.none_or, show Option.filter _ (governing? t xs offset) = _ from hnone]; rfl

/-- Marks in front do not count where a later one does. -/
theorem mappedBy?_append_of_isSome (h : ∀ x ∈ xs, ∀ y ∈ ys, x.offset ≤ y.offset)
    (hsome : (governing? t ys offset).isSome) :
    mappedBy? t (xs ++ ys) offset = mappedBy? t ys offset := by
  obtain ⟨m, hm⟩ := Option.isSome_iff_exists.mp hsome
  rw [mappedBy?_append h, mappedBy?, hm, Option.some_or]

/-- Marks in front that give the same origins may be exchanged. -/
theorem mappedBy?_append_congr (h : ∀ x ∈ xs, ∀ y ∈ ys, x.offset ≤ y.offset)
    (h' : ∀ x ∈ xs', ∀ y ∈ ys, x.offset ≤ y.offset)
    (heq : mappedBy? t xs offset = mappedBy? t xs' offset) :
    mappedBy? t (xs ++ ys) offset = mappedBy? t (xs' ++ ys) offset := by
  rw [mappedBy?_append h, mappedBy?_append h']
  cases governing? t ys offset with
  | some m => rw [Option.some_or, Option.some_or]
  | none => exact heq

theorem mappedBy?_of_lt (h : ∀ m ∈ marks, offset < m.offset) : mappedBy? t marks offset = none := by
  rw [mappedBy?, governing?_of_lt h]
  rfl

theorem mappedBy?_append_of_lt (h : ∀ y ∈ ys, offset < y.offset) :
    mappedBy? t (xs ++ ys) offset = mappedBy? t xs offset := by
  have hnone : latest (fun m => t.onLine m.offset offset) Mark.offset ys = none := governing?_of_lt h
  rw [mappedBy?, governing?, latest_append, hnone, preferLater_none_right]
  rfl

/-! ### Marks of parts -/

theorem mappedBy?_append_right (hp : p ≤ t.length) (marks : List Mark) :
    mappedBy? (before ++ t ++ after) (marks.map (move before.length)) (before.length + p) =
      (mappedBy? t marks p).map (move before.length) := by
  unfold mappedBy?
  rw [governing?_append_right hp]
  cases governing? t marks p with
  | none => rfl
  | some m =>
    rw [Option.map_some, Option.filter_some, Option.filter_some, origin_move]
    split <;> rfl

theorem mappedBy?_append_left (hp : p ≤ t.length) (h : ∀ m ∈ marks, m.offset ≤ before.length) :
    mappedBy? (before ++ t ++ after) marks (before.length + p) =
      if t.onLine 0 p then mappedBy? before marks before.length else none := by
  unfold mappedBy?
  rw [governing?_append_left hp h]
  split <;> rfl

/-- Up to the end of a text what stands before it counts on its first line only. -/
theorem mappedBy?_append_end (hp : p ≤ t.length) (h : ∀ m ∈ marks, m.offset ≤ before.length) :
    mappedBy? (before ++ t) marks (before.length + p) =
      if t.onLine 0 p then mappedBy? before marks before.length else none := by
  have hleft : mappedBy? (before ++ t ++ []) marks (before.length + p) = _ :=
    mappedBy?_append_left hp h
  rwa [List.append_nil] at hleft

/-- The text behind an offset does not count. -/
theorem mappedBy?_of_le (hoffset : offset ≤ t.length) :
    mappedBy? (t ++ after) marks offset = mappedBy? t marks offset := by
  unfold mappedBy? governing?
  congr 1
  refine latest_congr (fun m _ => ?_) fun _ _ _ _ _ _ => Iff.rfl
  rw [Text.onLine, Text.onLine, List.take_append_of_le_length hoffset]

/-- Marks that give the same origins to the offsets of a text give them to what follows it. -/
theorem mappedBy?_append_text (h : ∀ x ∈ xs, x.offset ≤ t.length)
    (h' : ∀ x ∈ xs', x.offset ≤ t.length)
    (heq : ∀ offset ≤ t.length, mappedBy? t xs offset = mappedBy? t xs' offset)
    (hoffset : offset ≤ (t ++ after).length) :
    mappedBy? (t ++ after) xs offset = mappedBy? (t ++ after) xs' offset := by
  by_cases hle : offset ≤ t.length
  · rw [mappedBy?_of_le hle, mappedBy?_of_le hle, heq offset hle]
  · obtain ⟨p, rfl⟩ := Nat.exists_eq_add_of_le (Nat.le_of_not_le hle)
    have hp : p ≤ after.length := by
      rw [List.length_append] at hoffset
      omega
    rw [mappedBy?_append_end hp h, mappedBy?_append_end hp h', heq _ (Nat.le_refl _)]

end Mark

namespace Composition

variable {before t : Text} {bs cs : List Composition} {c : Composition} {p : Nat}

/-! ## Ends of results -/

/-- An entry with an origin stands at the very end of the text of a result. -/
def MappedAtEnd (c : Composition) : Prop :=
  ∃ m ∈ c.mappings, m.origin.isSome ∧ m.line = (c.text.stop.line : Number) ∧
    m.column = (c.text.stop.column : Number)

instance (c : Composition) : Decidable c.MappedAtEnd :=
  inferInstanceAs (Decidable (∃ m ∈ c.mappings, m.origin.isSome ∧
    m.line = (c.text.stop.line : Number) ∧ m.column = (c.text.stop.column : Number)))

/-- A mark with an origin at the very end is an entry there. -/
theorem Proper.mappedAtEnd (h : c.Proper) {m : Mark} (hm : m ∈ c.marks) (ho : m.origin.isSome)
    (hoffset : m.offset = c.text.length) : c.MappedAtEnd := by
  obtain ⟨entry, hentry, rfl⟩ := List.mem_map.mp hm
  have hinText := h.inText entry hentry
  have hplace : entry.place = c.text.stop := by
    rw [hinText.place_eq, show entry.offsetIn c.text = _ from hoffset,
      Text.positionOf_eq_stop (Nat.le_refl _), List.take_length]
  refine ⟨entry, hentry, by simpa [Mapping.markIn] using ho, ?_, ?_⟩
  · rw [hinText.placed.line, hplace]
  · rw [hinText.placed.column, hplace]

/-- A result without a text is mapped at its end, or nowhere. -/
theorem Proper.origin_of_text_nil (h : c.Proper) (htext : c.text = []) (hend : ¬ c.MappedAtEnd) :
    ∀ m ∈ c.marks, m.origin = none := by
  intro m hm
  rw [← Option.not_isSome_iff_eq_none]
  intro ho
  have hle := h.offset_le m hm
  exact hend (h.mappedAtEnd hm ho (by rw [htext, List.length_nil] at hle ⊢; omega))

/-! ## Parts behind a text -/

/-- A line starts at the end of joined texts if one starts at the end of the second. -/
theorem stop_column_append (h : before.stop.column = 0 ∨ t ≠ []) :
    (before ++ t).stop.column = 0 ↔ t.stop.column = 0 := by
  rw [Text.stop_column_eq_zero, Text.stop_column_eq_zero (t := t)]
  cases t using List.reverseRecOn with
  | nil =>
    rw [List.append_nil, ← Text.stop_column_eq_zero]
    exact iff_of_true (h.resolve_right fun hne => hne rfl) (Or.inl rfl)
  | append_singleton t u =>
    rw [← List.append_assoc]
    simp

/-- Behind a text that starts a line, and in any case behind another text, the same boundaries are
marked. -/
theorem boundaryMarks_append (h : before.stop.column = 0 ∨ t ≠ []) :
    boundaryMarks (before ++ t) = (boundaryMarks t).map (Mark.move before.length) := by
  have hcolumn := stop_column_append h
  unfold boundaryMarks
  by_cases hzero : t.stop.column = 0
  · rw [if_neg (by omega), if_neg (by omega)]
    rfl
  · rw [if_pos (by omega), if_pos (by omega), List.length_append]
    rfl

/-- Parts are marked behind a text as they are without it, if the text ends a line or another text
stands between. -/
theorem joinMarks_move (h : before.stop.column = 0 ∨ t ≠ []) (cs : List Composition) :
    joinMarks (before ++ t) cs = (joinMarks t cs).map (Mark.move before.length) := by
  induction cs generalizing t with
  | nil => rfl
  | cons c rest ih =>
    have hnext : before.stop.column = 0 ∨ t ++ c.text ≠ [] := h.imp id fun hne => by simp [hne]
    have hmove : Mark.move before.length ∘ Mark.move t.length = Mark.move (before ++ t).length := by
      funext m
      rw [Function.comp_apply, Mark.move_move, List.length_append]
    rw [joinMarks, joinMarks, List.append_assoc before, ih hnext, boundaryMarks_append h,
      List.map_append, List.map_append, List.map_map, hmove]

/-- Parts of which the first has a text are marked behind a text as they are without it, but for the mark
at the boundary. -/
theorem joinMarks_cons_of_ne_nil (before : Text) (hc : c.text ≠ []) (cs : List Composition) :
    joinMarks before (c :: cs) =
      boundaryMarks before ++ (joinMarks [] (c :: cs)).map (Mark.move before.length) := by
  simp only [joinMarks, joinMarks_move (Or.inr hc), boundaryMarks_nil, List.nil_append,
    List.length_nil, Mark.map_move_zero, List.map_append, List.append_assoc]

/-- A part without a text that is not mapped may be left out. -/
theorem mappedBy?_joinMarks_cons_of_nil (before : Text) (hc : c.Proper) (hcs : ∀ d ∈ cs, d.Proper)
    (htext : c.text = []) (hp : p ≤ (cs.flatMap Composition.text).length)
    (hempty : Text.onLine (cs.flatMap Composition.text) 0 p = true → ¬ c.MappedAtEnd) :
    Mark.mappedBy? (before ++ cs.flatMap Composition.text) (joinMarks before (c :: cs))
        (before.length + p) =
      Mark.mappedBy? (before ++ cs.flatMap Composition.text) (joinMarks before cs)
        (before.length + p) := by
  -- what the part has stands at the end of the text before
  have hends : ∀ m ∈ boundaryMarks before ++ c.marks.map (Mark.move before.length),
      m.offset = before.length := by
    intro m hm
    rcases List.mem_append.mp hm with hm | hm
    · rw [eq_of_mem_boundaryMarks hm]
    · obtain ⟨own, hown, rfl⟩ := List.mem_map.mp hm
      have hle := hc.offset_le own hown
      rw [htext, List.length_nil] at hle
      rw [Mark.offset_move]
      omega
  have hnone : Mark.mappedBy? (before ++ cs.flatMap Composition.text)
      (boundaryMarks before ++ c.marks.map (Mark.move before.length)) (before.length + p) = none := by
    by_cases hline : Text.onLine (cs.flatMap Composition.text) 0 p = true
    · apply Mark.mappedBy?_eq_none_of_origin
      intro m hm
      rcases List.mem_append.mp hm with hm | hm
      · rw [eq_of_mem_boundaryMarks hm]
      · obtain ⟨own, hown, rfl⟩ := List.mem_map.mp hm
        exact hc.origin_of_text_nil htext (hempty hline) own hown
    · rw [Mark.mappedBy?_append_end hp fun m hm => Nat.le_of_eq (hends m hm), if_neg hline]
  rw [joinMarks, htext, List.append_nil]
  refine Mark.mappedBy?_append_of_eq_none (fun x hx y hy => ?_) hnone
  rw [hends x hx]
  exact (offset_joinMarks hcs y hy).1

/-- **Parts are marked behind a text as they are without it**, unless one without a text is mapped and
the text before does not end a line. -/
theorem mappedBy?_joinMarks (before : Text) (hbs : ∀ b ∈ bs, b.Proper)
    (hp : p ≤ (bs.flatMap Composition.text).length)
    (hempty : before.stop.column ≠ 0 → Text.onLine (bs.flatMap Composition.text) 0 p = true →
      ∀ b ∈ bs, b.text = [] → ¬ b.MappedAtEnd) :
    Mark.mappedBy? (before ++ bs.flatMap Composition.text) (joinMarks before bs)
        (before.length + p) =
      (Mark.mappedBy? (bs.flatMap Composition.text) (joinMarks [] bs) p).map
        (Mark.move before.length) := by
  have hmoved : ∀ marks, Mark.mappedBy? (before ++ bs.flatMap Composition.text)
      (marks.map (Mark.move before.length)) (before.length + p) =
        (Mark.mappedBy? (bs.flatMap Composition.text) marks p).map (Mark.move before.length) := by
    intro marks
    have h : Mark.mappedBy? (before ++ bs.flatMap Composition.text ++ []) _ _ = _ :=
      Mark.mappedBy?_append_right hp marks
    rwa [List.append_nil] at h
  by_cases hcolumn : before.stop.column = 0
  · have hmarks := joinMarks_move (t := []) (Or.inl hcolumn) bs
    rw [List.append_nil] at hmarks
    rw [hmarks, hmoved]
  · -- parts without a text are left out one after the other, up to the first one with a text
    induction bs with
    | nil => rfl
    | cons b rest ih =>
      obtain ⟨hb, hrest⟩ := List.forall_mem_cons.mp hbs
      by_cases htext : b.text = []
      · rw [List.flatMap_cons, htext, List.nil_append] at hp hempty hmoved ⊢
        have hskip : ∀ before : Text, _ := fun before =>
          mappedBy?_joinMarks_cons_of_nil before hb hrest htext hp
            fun hline => hempty hcolumn hline b List.mem_cons_self htext
        have hown := hskip []
        rw [List.nil_append, List.length_nil, Nat.zero_add] at hown
        rw [hskip before, hown]
        exact ih hrest hp (fun hc hline d hd => hempty hc hline d (List.mem_cons_of_mem _ hd)) hmoved
      · rw [joinMarks_cons_of_ne_nil before htext, Mark.mappedBy?_append_of_eq_none, hmoved]
        · intro x hx y hy
          obtain ⟨own, -, rfl⟩ := List.mem_map.mp hy
          rw [eq_of_mem_boundaryMarks hx, Mark.offset_move]
          exact Nat.le_add_right _ _
        · apply Mark.mappedBy?_eq_none_of_origin
          intro m hm
          rw [eq_of_mem_boundaryMarks hm]

/-- Parts without a text of which none is mapped are joined to a result that is not mapped. -/
theorem not_mappedAtEnd_join (hbs : ∀ b ∈ bs, b.Proper) (htext : (join bs).text = [])
    (hempty : ∀ b ∈ bs, b.text = [] → ¬ b.MappedAtEnd) : ¬ (join bs).MappedAtEnd := by
  rintro ⟨entry, hentry, ho, -, -⟩
  have hmem : entry.markIn (join bs).text (join bs).describe ∈ joinMarks [] bs :=
    marks_subset_of_normalForm rfl (markedBy_join hbs) (List.mem_map_of_mem hentry)
  obtain ⟨o, hmark⟩ : ∃ o, (entry.markIn (join bs).text (join bs).describe).origin = some o := by
    rw [← Option.isSome_iff_exists, Mapping.markIn, Option.isSome_map]
    exact ho
  obtain ⟨first, b, rest, rfl, own, hown, heq⟩ := exists_of_mem_joinMarks hmem hmark
  have hbtext : b.text = [] := by
    rw [text_join, List.flatMap_eq_nil_iff] at htext
    exact htext b (by simp)
  have hnone := (hbs b (by simp)).origin_of_text_nil hbtext (hempty b (by simp) hbtext) own hown
  rw [heq, Mark.origin_move, hnone] at hmark
  cases hmark

/-- Parts may be joined on their own first: behind a text, the same marks count. -/
theorem mappedBy?_joinMarks_join (hbs : ∀ b ∈ bs, b.Proper) {before : Text}
    (hempty : ∀ b ∈ bs, b.text = [] → ¬ b.MappedAtEnd)
    (hp : p ≤ (bs.flatMap Composition.text).length) :
    Mark.mappedBy? (before ++ bs.flatMap Composition.text) (joinMarks before [join bs])
        (before.length + p) =
      Mark.mappedBy? (before ++ bs.flatMap Composition.text) (joinMarks before bs)
        (before.length + p) := by
  have htext : [join bs].flatMap Composition.text = bs.flatMap Composition.text := by
    rw [List.flatMap_singleton, text_join]
  have hproper : ∀ d ∈ [join bs], d.Proper := by simpa using join_proper hbs
  have houter := mappedBy?_joinMarks (p := p) before hproper (by rwa [htext]) fun _ _ b hb => by
    rw [List.mem_singleton.mp hb]
    exact fun hnil => not_mappedAtEnd_join hbs hnil hempty
  rw [htext, joinMarks_singleton] at houter
  rw [houter, mappedBy?_joinMarks before hbs hp fun _ _ => hempty]
  exact congrArg _ (mappedBy?_of_normalForm rfl (markedBy_join hbs) hp)

/-! ## What goes on at the end of a text -/

/-- Where a line starts at the end of a text, no other offset is on the line. -/
theorem eq_length_of_onLine {t : Text} {a : Nat} (hcolumn : t.stop.column = 0)
    (h : t.onLine a t.length = true) : a = t.length := by
  obtain ⟨hle, hline⟩ := Text.onLine_iff.mp h
  rw [List.take_length] at hline
  rcases Text.stop_column_eq_zero.mp hcolumn with rfl | hlast
  · exact Nat.le_zero.mp hle
  · obtain ⟨first, rfl⟩ := List.getLast?_eq_some_iff.mp hlast
    rw [List.length_append, List.length_singleton] at hle ⊢
    by_contra hne
    rw [List.drop_append_of_le_length (by omega)] at hline
    exact hline (by simp)

/-- The marks of a result at its end give no origin if a line starts there and no entry with an origin
stands there. -/
theorem mappedBy?_end (h : c.Proper) (hend : ¬ c.MappedAtEnd) (hcolumn : c.text.stop.column = 0) :
    Mark.mappedBy? c.text c.marks c.text.length = none := by
  rw [← Option.not_isSome_iff_eq_none]
  intro hsome
  obtain ⟨m, hm⟩ := Option.isSome_iff_exists.mp hsome
  obtain ⟨hgoverning, ho⟩ := Mark.mappedBy?_eq_some_iff.mp hm
  obtain ⟨hmem, hline⟩ := mem_of_latest hgoverning
  exact hend (h.mappedAtEnd hmem ho (eq_length_of_onLine hcolumn hline))

/-- **Where a line starts, nothing goes on over it**, if no group of parts is mapped at its end. -/
theorem mappedBy?_end_of_lineStart {groups : List (List Composition)}
    (hgroups : ∀ g ∈ groups, (∀ d ∈ g, d.Proper) ∧ ¬ (join g).MappedAtEnd)
    (hcolumn : (join groups.flatten).text.stop.column = 0) :
    Mark.mappedBy? (join groups.flatten).text (joinMarks [] groups.flatten)
      (join groups.flatten).text.length = none := by
  -- by induction on the groups from the last one: what goes on over it is mapped at the end before it
  induction groups using List.reverseRecOn with
  | nil => rfl
  | append_singleton groups g ih =>
    obtain ⟨hbefore, hg⟩ := List.forall_mem_append.mp hgroups
    obtain ⟨hproper, hend⟩ := hg g List.mem_cons_self
    have hparts : ∀ d ∈ groups.flatten, d.Proper := by
      intro d hd
      obtain ⟨g', hg', hd⟩ := List.mem_flatten.mp hd
      exact (hbefore g' hg').1 d hd
    have hends := offset_joinMarks_le hparts
    have htext : (join (groups ++ [g]).flatten).text =
        (join groups.flatten).text ++ (join g).text := by
      simp [text_join]
    have hmarks : joinMarks [] (groups ++ [g]).flatten =
        joinMarks [] groups.flatten ++ joinMarks (join groups.flatten).text g := by
      rw [List.flatten_append, List.flatten_singleton, joinMarks_append]
      rfl
    have ih := ih hbefore
    rw [htext] at hcolumn
    rw [htext, hmarks, List.length_append]
    generalize (join groups.flatten).text = before at *
    have hcolumnOf : (join g).text.stop.column = 0 := by
      by_cases hnil : (join g).text = []
      · rw [hnil]
        rfl
      · exact (stop_column_append (Or.inr hnil)).mp hcolumn
    have hstart : (join g).text.onLine 0 (join g).text.length = true → before.stop.column = 0 := by
      intro hline
      have hnil := List.length_eq_zero_iff.mp (eq_length_of_onLine hcolumnOf hline).symm
      rwa [hnil, List.append_nil] at hcolumn
    have hfirst : Mark.mappedBy? (before ++ (join g).text) (joinMarks [] groups.flatten)
        (before.length + (join g).text.length) = none := by
      rw [Mark.mappedBy?_append_end (Nat.le_refl _) hends]
      split
      · rename_i hline
        exact ih (hstart hline)
      · rfl
    have hlast : Mark.mappedBy? (join g).text (joinMarks [] g) (join g).text.length = none :=
      (mappedBy?_of_normalForm rfl (markedBy_join hproper) (Nat.le_refl _)).symm.trans
        (mappedBy?_end (join_proper hproper) hend hcolumnOf)
    have hmoved := mappedBy?_joinMarks (p := (join g).text.length) before hproper (Nat.le_refl _)
      fun hne hline => absurd (hstart hline) hne
    rw [← text_join, hlast] at hmoved
    rw [Mark.mappedBy?_append_of_eq_none _ hfirst, hmoved]
    · rfl
    · intro x hx y hy
      exact Nat.le_trans (hends x hx) (offset_joinMarks hproper y hy).1

/-! ## Joining at once and one after the other -/

/-- Behind a text that does not end a line, the first line of parts falls to one of their marks. -/
theorem isSome_governing?_joinMarks (hbs : bs ≠ []) {before : Text} (hcolumn : before.stop.column ≠ 0)
    (hp : p ≤ (bs.flatMap Composition.text).length)
    (hline : Text.onLine (bs.flatMap Composition.text) 0 p = true) :
    (Mark.governing? (before ++ bs.flatMap Composition.text) (joinMarks before bs)
      (before.length + p)).isSome := by
  obtain ⟨b, rest, rfl⟩ := List.exists_cons_of_ne_nil hbs
  have hmem : (⟨before.length, none⟩ : Mark) ∈ joinMarks before (b :: rest) := by
    simp [joinMarks, boundaryMarks, Nat.pos_of_ne_zero hcolumn]
  have happlies : Text.onLine (before ++ (b :: rest).flatMap Composition.text) before.length
      (before.length + p) = true := by
    have h : Text.onLine (before ++ (b :: rest).flatMap Composition.text ++ []) (before.length + 0)
        (before.length + p) = Text.onLine ((b :: rest).flatMap Composition.text) 0 p :=
      Text.onLine_append hp
    rwa [List.append_nil, Nat.add_zero, hline] at h
  obtain ⟨m, hm, -⟩ : ∃ m ∈ Mark.governing? (before ++ (b :: rest).flatMap Composition.text)
      (joinMarks before (b :: rest)) (before.length + p), before.length ≤ m.offset :=
    exists_latest hmem happlies
  exact Option.isSome_iff_exists.mpr ⟨m, hm⟩

/-- What stands before parts does not count on them, if nothing goes on at its end or a part ends it. -/
theorem mappedBy?_append_joinMarks (hbs : ∀ b ∈ bs, b.Proper) {before : Text} {marks : List Mark}
    (hmarks : ∀ m ∈ marks, m.offset ≤ before.length)
    (hend : bs = [] ∨ before.stop.column = 0 →
      Mark.mappedBy? before marks before.length = none)
    (hp : p ≤ (bs.flatMap Composition.text).length) :
    Mark.mappedBy? (before ++ bs.flatMap Composition.text) (marks ++ joinMarks before bs)
        (before.length + p) =
      Mark.mappedBy? (before ++ bs.flatMap Composition.text) (joinMarks before bs)
        (before.length + p) := by
  have hle : ∀ x ∈ marks, ∀ y ∈ joinMarks before bs, x.offset ≤ y.offset := fun x hx y hy =>
    Nat.le_trans (hmarks x hx) (offset_joinMarks hbs y hy).1
  have hleft := Mark.mappedBy?_append_end hp hmarks
  by_cases hline : Text.onLine (bs.flatMap Composition.text) 0 p = true
  · by_cases hcase : bs = [] ∨ before.stop.column = 0
    · exact Mark.mappedBy?_append_of_eq_none hle (by rw [hleft, hend hcase]; simp)
    · rw [not_or] at hcase
      exact Mark.mappedBy?_append_of_isSome hle
        (isSome_governing?_joinMarks hcase.1 hcase.2 hp hline)
  · exact Mark.mappedBy?_append_of_eq_none hle (by rw [hleft, if_neg hline])

/-- Behind a text, the same marks count if the first parts are joined on their own. -/
theorem mappedBy?_joinMarks_nested {zs : List Composition} (hbs : ∀ b ∈ bs, b.Proper)
    (hzs : ∀ d ∈ zs, d.Proper) {before : Text} (hempty : ∀ b ∈ bs, b.text = [] → ¬ b.MappedAtEnd)
    {offset : Nat} (hoffset : offset ≤ (before ++ (bs ++ zs).flatMap Composition.text).length) :
    Mark.mappedBy? (before ++ (bs ++ zs).flatMap Composition.text)
        (joinMarks before (join bs :: zs)) offset =
      Mark.mappedBy? (before ++ (bs ++ zs).flatMap Composition.text)
        (joinMarks before (bs ++ zs)) offset := by
  have hjoin : ∀ d ∈ [join bs], d.Proper := by simpa using join_proper hbs
  have hjoinText : [join bs].flatMap Composition.text = bs.flatMap Composition.text := by
    rw [List.flatMap_singleton, text_join]
  have hle : ∀ m ∈ joinMarks before [join bs], before.length ≤ m.offset ∧
      m.offset ≤ (before ++ bs.flatMap Composition.text).length := by
    rw [← hjoinText]
    exact offset_joinMarks hjoin
  rw [← List.singleton_append, joinMarks_append, joinMarks_append, hjoinText]
  rw [List.flatMap_append, ← List.append_assoc] at hoffset ⊢
  have hlater : ∀ y ∈ joinMarks (before ++ bs.flatMap Composition.text) zs,
      (before ++ bs.flatMap Composition.text).length ≤ y.offset :=
    fun y hy => (offset_joinMarks hzs y hy).1
  refine Mark.mappedBy?_append_congr (fun x hx y hy => Nat.le_trans (hle x hx).2 (hlater y hy))
    (fun x hx y hy => Nat.le_trans (offset_joinMarks hbs x hx).2 (hlater y hy))
    (Mark.mappedBy?_append_text (fun x hx => (hle x hx).2)
      (fun x hx => (offset_joinMarks hbs x hx).2) (fun o ho => ?_) hoffset)
  by_cases hlt : o < before.length
  · rw [Mark.mappedBy?_of_lt fun y hy => Nat.lt_of_lt_of_le hlt (hle y hy).1,
      Mark.mappedBy?_of_lt fun y hy => Nat.lt_of_lt_of_le hlt (offset_joinMarks hbs y hy).1]
  · obtain ⟨p, rfl⟩ := Nat.exists_eq_add_of_le (Nat.le_of_not_lt hlt)
    exact mappedBy?_joinMarks_join hbs hempty (by rw [List.length_append] at ho; omega)

/-- Whether parts are joined on their own first makes no difference to the marks that count. -/
theorem mappedBy?_nested {xs zs : List Composition} (hxs : ∀ d ∈ xs, d.Proper)
    (hbs : ∀ b ∈ bs, b.Proper) (hzs : ∀ d ∈ zs, d.Proper)
    (hempty : ∀ b ∈ bs, b.text = [] → ¬ b.MappedAtEnd)
    (hend : bs ++ zs = [] ∨ (join xs).text.stop.column = 0 →
      Mark.mappedBy? (join xs).text (joinMarks [] xs) (join xs).text.length = none)
    {offset : Nat} (hoffset : offset ≤ (join (xs ++ bs ++ zs)).text.length) :
    Mark.mappedBy? (join (xs ++ bs ++ zs)).text (joinMarks [] (xs ++ join bs :: zs)) offset =
      Mark.mappedBy? (join (xs ++ bs ++ zs)).text (joinMarks [] (xs ++ bs ++ zs)) offset := by
  have hinner : ∀ d ∈ bs ++ zs, d.Proper := List.forall_mem_append.mpr ⟨hbs, hzs⟩
  have hnested : ∀ d ∈ join bs :: zs, d.Proper := List.forall_mem_cons.mpr ⟨join_proper hbs, hzs⟩
  have htext : (join (xs ++ bs ++ zs)).text =
      (join xs).text ++ (bs ++ zs).flatMap Composition.text := by
    simp [text_join]
  have hnestedText : (join bs :: zs).flatMap Composition.text =
      (bs ++ zs).flatMap Composition.text := by
    simp [text_join]
  have hmarks : joinMarks [] (xs ++ bs ++ zs) =
      joinMarks [] xs ++ joinMarks (join xs).text (bs ++ zs) := by
    rw [List.append_assoc, joinMarks_append]
    rfl
  have hnestedMarks : joinMarks [] (xs ++ join bs :: zs) =
      joinMarks [] xs ++ joinMarks (join xs).text (join bs :: zs) := by
    rw [joinMarks_append]
    rfl
  have hends := offset_joinMarks_le hxs
  rw [htext] at hoffset ⊢
  rw [hmarks, hnestedMarks]
  generalize (join xs).text = before at *
  by_cases hlt : offset < before.length
  · -- only the parts before count
    rw [Mark.mappedBy?_append_of_lt fun y hy =>
        Nat.lt_of_lt_of_le hlt (offset_joinMarks hnested y hy).1,
      Mark.mappedBy?_append_of_lt fun y hy =>
        Nat.lt_of_lt_of_le hlt (offset_joinMarks hinner y hy).1]
  · -- only the parts behind count, of which the inner ones are marked alike
    obtain ⟨p, rfl⟩ := Nat.exists_eq_add_of_le (Nat.le_of_not_lt hlt)
    have hp : p ≤ ((bs ++ zs).flatMap Composition.text).length := by
      rw [List.length_append] at hoffset
      omega
    have hrest := mappedBy?_append_joinMarks (p := p) hnested hends
      (fun h => hend (Or.inr (h.resolve_left (List.cons_ne_nil _ _)))) (by rwa [hnestedText])
    rw [hnestedText] at hrest
    rw [hrest, mappedBy?_append_joinMarks hinner hends hend hp]
    exact mappedBy?_joinMarks_nested hbs hzs hempty hoffset

/-! ## Tables -/

theorem joinFrom_tables (joint : Joint) (cs : List Composition) :
    (joinFrom joint cs).2 =
      ((joint.sources.internAll (cs.flatMap fun c => c.sources.entries)).2,
        (joint.names.internAll (cs.flatMap fun c => c.names.texts)).2) := by
  induction cs generalizing joint with
  | nil => rfl
  | cons c rest ih =>
    rw [joinFrom, List.flatMap_cons, List.flatMap_cons, ContentTable.internAll_append,
      TextTable.internAll_append]
    exact ih _

/-- Tables may be merged one after the other. -/
theorem joinFrom_nested_tables (xs bs zs : List Composition) :
    (joinFrom {} (xs ++ join bs :: zs)).2 = (joinFrom {} (xs ++ bs ++ zs)).2 := by
  have hsources : (join bs).sources =
      (ContentTable.internAll {} (bs.flatMap fun c => c.sources.entries)).2 :=
    congrArg Prod.fst (joinFrom_tables {} bs)
  have hnames : (join bs).names = (TextTable.internAll {} (bs.flatMap fun c => c.names.texts)).2 :=
    congrArg Prod.snd (joinFrom_tables {} bs)
  have hxs := ContentTable.nodup_internAll ContentTable.nodup_empty
    (xs.flatMap fun c => c.sources.entries)
  simp only [joinFrom_tables, List.flatMap_append, List.flatMap_cons, ContentTable.internAll_append,
    TextTable.internAll_append, hsources, hnames, ContentTable.internAll_internAll_entries hxs,
    TextTable.internAll_internAll]

/-- The longest chain is that of a part. -/
theorem chainLength_nested (xs bs zs : List Composition) :
    (join (xs ++ join bs :: zs)).chainLength = (join (xs ++ bs ++ zs)).chainLength := by
  have hmax : ∀ (a : Nat) (ns : List Nat), max a (ns.foldl max 0) = ns.foldl max a := by
    intro a ns
    have h : ns.foldl max (max a 0) = max a (ns.foldl max 0) := List.foldl_assoc
    rwa [Nat.max_zero, eq_comm] at h
  simp only [join, List.map_append, List.map_cons, List.foldl_append, List.foldl_cons, hmax]

/-- **Nesting joins changes no result**, if no inner part without a text is mapped and nothing goes on at
the end of the parts before where neither a boundary nor a part ends it. -/
theorem join_nested {xs zs : List Composition} (hxs : ∀ d ∈ xs, d.Proper) (hbs : ∀ b ∈ bs, b.Proper)
    (hzs : ∀ d ∈ zs, d.Proper) (hempty : ∀ b ∈ bs, b.text = [] → ¬ b.MappedAtEnd)
    (hend : bs ++ zs = [] ∨ (join xs).text.stop.column = 0 →
      Mark.mappedBy? (join xs).text (joinMarks [] xs) (join xs).text.length = none) :
    join (xs ++ join bs :: zs) = join (xs ++ bs ++ zs) := by
  have hflat : ∀ d ∈ xs ++ bs ++ zs, d.Proper :=
    List.forall_mem_append.mpr ⟨List.forall_mem_append.mpr ⟨hxs, hbs⟩, hzs⟩
  have hnested : ∀ d ∈ xs ++ join bs :: zs, d.Proper :=
    List.forall_mem_append.mpr ⟨hxs, List.forall_mem_cons.mpr ⟨join_proper hbs, hzs⟩⟩
  have htext : (join (xs ++ join bs :: zs)).text = (join (xs ++ bs ++ zs)).text := by
    simp [text_join]
  have htables := joinFrom_nested_tables xs bs zs
  have hsources : (join (xs ++ join bs :: zs)).sources = (join (xs ++ bs ++ zs)).sources :=
    congrArg Prod.fst htables
  have hnames : (join (xs ++ join bs :: zs)).names = (join (xs ++ bs ++ zs)).names :=
    congrArg Prod.snd htables
  have hmarked := markedBy_join hnested
  rw [htext, hsources, hnames] at hmarked
  have htidy := join_tidy (xs ++ bs ++ zs)
  have hmappings := MarkedBy.normalForm_eq htidy.sources htidy.names hmarked (markedBy_join hflat)
    fun offset hoffset => mappedBy?_nested hxs hbs hzs hempty hend hoffset
  exact Composition.mk.injEq .. ▸
    ⟨htext, hmappings, hsources, hnames, chainLength_nested xs bs zs⟩

end Composition

end Provenance
