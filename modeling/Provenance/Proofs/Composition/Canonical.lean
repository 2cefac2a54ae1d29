/-
# Results with one set of marks

A table in normal form is told by the marks that the offsets of its text fall to.  Where no table holds
a text twice, a mark is that of one entry only, so that results with the same tables, whose offsets fall
to the same marks, have the same entries.

The main facts:

* `mappedBy?_marksOf` : the mark with an origin that an offset falls to is the entry that its position
  falls to;
* `Mapping.eq_of_markIn` : entries with one mark are equal;
* `MarkedBy.normalForm_eq` : tables whose offsets fall to the same marks with origins have the same
  normal form;
* `normalForm_eq_mappings` : the entries of a proper and tidy result, by its marks.
-/
import Provenance.Proofs.Composition.Regular
import Provenance.Proofs.Mapping.Canonical

namespace Provenance

/-- Locations that are described in the same words by tables without repetitions are equal. -/
theorem Location.eq_of_describeIn {sources names : TextTable} (hsources : sources.texts.Nodup)
    (hnames : names.texts.Nodup) {o o' : Location} (ho : o.KnownIn sources names)
    (ho' : o'.KnownIn sources names) (h : o.describeIn sources names = o'.describeIn sources names) :
    o = o' := by
  obtain ⟨s, hs⟩ := Option.isSome_iff_exists.mp ho.source
  obtain ⟨hsource, hline, hcolumn, hname⟩ := OriginPosition.mk.inj h
  have hsourceIndex : o.source = o'.source :=
    TextTable.eq_of_get? hsources hs (hsource.symm.trans hs)
  have hnameIndex : o.name = o'.name := by
    cases hn : o.name with
    | none =>
      cases hn' : o'.name with
      | none => rfl
      | some n' =>
        -- a name that is known has a text, and the other location has none
        have hsome := ho'.name n' hn'
        rw [hn, hn', Option.bind_none, Option.bind_some] at hname
        rw [← hname] at hsome
        cases hsome
    | some n =>
      obtain ⟨t, ht⟩ := Option.isSome_iff_exists.mp (ho.name n hn)
      rw [hn, Option.bind_some, ht] at hname
      obtain ⟨n', hn', ht'⟩ := Option.bind_eq_some_iff.mp hname.symm
      rw [hn', TextTable.eq_of_get? hnames ht ht']
  cases o
  cases o'
  simp only at hsourceIndex hline hcolumn hnameIndex
  rw [hsourceIndex, hline, hcolumn, hnameIndex]

/-! ## Marks with origins -/

namespace Mark

/-- The mark that an offset falls to, if it has an origin. -/
def mappedBy? (t : Text) (marks : List Mark) (offset : Nat) : Option Mark :=
  (governing? t marks offset).filter fun m => m.origin.isSome

variable {t : Text} {marks : List Mark} {offset : Nat} {m : Mark}

theorem mappedBy?_eq_some_iff :
    mappedBy? t marks offset = some m ↔ governing? t marks offset = some m ∧ m.origin.isSome :=
  Option.filter_eq_some_iff

/-- An offset comes from nowhere if it falls to no mark with an origin. -/
theorem mappedBy?_eq_none_iff_trace :
    mappedBy? t marks offset = none ↔ trace t marks offset = none := by
  unfold mappedBy? trace originOf
  cases governing? t marks offset with
  | none => simp
  | some m => simp

end Mark

/-- The mark with an origin that an offset falls to is the entry that its position falls to. -/
theorem MappingTable.mappedBy?_marksOf {t : Text} {table : MappingTable}
    (h : ∀ m ∈ table, m.InText t) (describe : Location → OriginPosition) {offset : Nat}
    (hoffset : offset ≤ t.length) :
    Mark.mappedBy? t (table.map (Mapping.markIn t describe)) offset =
      (table.mappedBy? (t.positionOf offset)).map (Mapping.markIn t describe) := by
  unfold Mark.mappedBy? MappingTable.mappedBy?
  rw [governing?_marksOf h describe hoffset]
  cases table.cover? (t.positionOf offset) with
  | none => rfl
  | some m =>
    have hsome : (m.markIn t describe).origin.isSome = m.origin.isSome := by
      rw [Mapping.markIn, Option.isSome_map]
    rw [Option.map_some, Option.filter_some, Option.filter_some, hsome]
    split <;> rfl

/-- **Entries with one mark are equal**, if no table holds a text twice. -/
theorem Mapping.eq_of_markIn {t : Text} {sources names : TextTable} (hsources : sources.texts.Nodup)
    (hnames : names.texts.Nodup) {m m' : Mapping} (hm : m.InText t) (hm' : m'.InText t)
    (hknown : ∀ o ∈ m.origin, o.KnownIn sources names)
    (hknown' : ∀ o ∈ m'.origin, o.KnownIn sources names)
    (h : m.markIn t (Location.describeIn sources names) =
      m'.markIn t (Location.describeIn sources names)) : m = m' := by
  obtain ⟨hoffset, horigin⟩ := Mark.mk.inj h
  have heq : m.origin = m'.origin := by
    cases ho : m.origin with
    | none =>
      rw [ho, Option.map_none] at horigin
      rw [Option.map_eq_none_iff.mp horigin.symm]
    | some o =>
      rw [ho, Option.map_some] at horigin
      obtain ⟨o', ho', hdescribe⟩ := Option.map_eq_some_iff.mp horigin.symm
      rw [ho', Location.eq_of_describeIn hsources hnames (hknown o ho) (hknown' o' ho')
        hdescribe.symm]
  rw [hm.eq_entryAt, hm'.eq_entryAt, hoffset, heq]

/-! ## Tables with one set of marks -/

namespace MarkedBy

variable {t : Text} {sources names : TextTable} {entries others : MappingTable}
  {marks marks' : List Mark}

/-- Positions fall to the same entries with origins where their offsets fall to the same marks. -/
theorem mappedBy?_eq (hsources : sources.texts.Nodup) (hnames : names.texts.Nodup)
    (h : MarkedBy t sources names entries marks) (h' : MarkedBy t sources names others marks')
    {offset : Nat} (hoffset : offset ≤ t.length)
    (hmapped : Mark.mappedBy? t marks offset = Mark.mappedBy? t marks' offset) :
    entries.mappedBy? (t.positionOf offset) = others.mappedBy? (t.positionOf offset) := by
  rw [← h.marks_eq, ← h'.marks_eq, MappingTable.mappedBy?_marksOf h.inText _ hoffset,
    MappingTable.mappedBy?_marksOf h'.inText _ hoffset] at hmapped
  cases hm : entries.mappedBy? (t.positionOf offset) with
  | none =>
    rw [hm, Option.map_none] at hmapped
    exact (Option.map_eq_none_iff.mp hmapped.symm).symm
  | some m =>
    rw [hm, Option.map_some] at hmapped
    obtain ⟨m', hm', hmark⟩ := Option.map_eq_some_iff.mp hmapped.symm
    have hmem := (MappingTable.covers_of_mappedBy? hm).1
    have hmem' := (MappingTable.covers_of_mappedBy? hm').1
    rw [hm', Mapping.eq_of_markIn hsources hnames (h.inText m hmem) (h'.inText m' hmem')
      (h.known m hmem) (h'.known m' hmem') hmark.symm]

/-- **Tables whose offsets fall to the same marks with origins have the same normal form.** -/
theorem normalForm_eq (hsources : sources.texts.Nodup) (hnames : names.texts.Nodup)
    (h : MarkedBy t sources names entries marks) (h' : MarkedBy t sources names others marks')
    (hmapped : ∀ offset ≤ t.length, Mark.mappedBy? t marks offset = Mark.mappedBy? t marks' offset) :
    entries.normalForm = others.normalForm := by
  refine MappingTable.normalForm_eq_of_mappedBy? h.placed h'.placed fun m hm column hle => ?_
  have hinText : m.InText t := hm.elim (h.inText m) (h'.inText m)
  obtain ⟨start, hstart, hsum, hend⟩ := Text.exists_lineStart hinText.offsetIn_le
  rw [← hinText.place_eq] at hstart hsum hend
  -- the places up to the entry on its line are those of offsets
  have hcolumn : start + column ≤ t.lineEnd m.place.line := by omega
  have hoffset : start + column ≤ t.length := by
    have := hinText.offsetIn_le
    omega
  rw [← show t.positionOf (start + column) = _ from Text.positionOf_of_le_lineEnd hstart hcolumn]
  exact h.mappedBy?_eq hsources hnames h' hoffset (hmapped _ hoffset)

end MarkedBy

/-- Marks that are moved by nothing stay where they are. -/
@[simp] theorem Mark.map_move_zero (marks : List Mark) : marks.map (Mark.move 0) = marks := by
  have hmove : Mark.move 0 = id := funext fun m => by simp [Mark.move]
  rw [hmove, List.map_id]

namespace Composition

@[simp] theorem boundaryMarks_nil : boundaryMarks [] = [] := rfl

/-- The marks of a result that is joined with nothing else are its own. -/
theorem joinMarks_singleton (c : Composition) : joinMarks [] [c] = c.marks := by
  simp [joinMarks]

variable {c : Composition} {entries : MappingTable} {marks : List Mark}

/-- In a result whose table is a normal form, the marks that it is made of count. -/
theorem mappedBy?_of_normalForm (hmappings : c.mappings = entries.normalForm)
    (h : MarkedBy c.text c.sources.names c.names entries marks) {offset : Nat}
    (hoffset : offset ≤ c.text.length) :
    Mark.mappedBy? c.text c.marks offset = Mark.mappedBy? c.text marks offset := by
  have hinText := (proper_of_normalForm hmappings h).inText
  rw [← h.marks_eq, MappingTable.mappedBy?_marksOf h.inText _ hoffset, Composition.marks,
    MappingTable.mappedBy?_marksOf hinText _ hoffset, hmappings,
    MappingTable.mappedBy?_normalForm h.placed]
  rfl

/-- **The entries of a proper and tidy result, by its marks**: every table in which offsets fall to the
same marks with origins has them as its normal form. -/
theorem normalForm_eq_mappings (hproper : c.Proper) (htidy : c.Tidy)
    (h : MarkedBy c.text c.sources.names c.names entries marks)
    (hmapped : ∀ offset ≤ c.text.length,
      Mark.mappedBy? c.text marks offset = Mark.mappedBy? c.text c.marks offset) :
    entries.normalForm = c.mappings := by
  rw [MarkedBy.normalForm_eq htidy.sources htidy.names h hproper.markedBy hmapped]
  exact MappingTable.normalForm_eq_self hproper.markedBy.placed hproper.increasing htidy.closed

end Composition

end Provenance
