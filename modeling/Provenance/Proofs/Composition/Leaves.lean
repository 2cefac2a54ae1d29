/-
# Joined leaves

Leaves are texts that come from nowhere and files.  In a join of leaves every unit comes from where it
stands in its own leaf: the last entry of a file stands in front of the file's end, so that no leaf goes
on over the next one.

The main facts:

* `originAtOffset_join_leaves` : the origin of a unit of a leaf;
* `within_compact` : the source map of a text has no numbers beyond the length of the text;
* `toMap_join_leaves` : the source map of joined leaves.
-/
import Provenance.Proofs.Composition.File
import Provenance.Proofs.Composition.Join
import Provenance.Proofs.Composition.Output

namespace Provenance.Composition

/-! ## Origins -/

/-- A text that comes from nowhere, or a file. -/
inductive IsLeaf : Composition → Prop where
  | plain (t : Text) : IsLeaf (plain t)
  | file (t name : Text) : IsLeaf (file t name)

variable {c : Composition} {cs before after : List Composition}

theorem IsLeaf.proper (h : c.IsLeaf) : c.Proper := by
  cases h with
  | plain t => exact plain_proper t
  | file t name => exact file_proper t name

/-- A mark of a leaf is a mark of a file, at a unit of it. -/
theorem IsLeaf.exists_of_mem_marks (h : c.IsLeaf) {m : Mark} (hm : m ∈ c.marks) :
    ∃ t name, c = .file t name ∧ m.offset < t.length ∧
      m.origin = some (ownOrigin t name m.offset) := by
  cases h with
  | plain t => simp [marks, Composition.plain] at hm
  | file t name => exact ⟨t, name, rfl, mem_marks_file hm⟩

theorem originAtOffset_plain (t : Text) {offset : Nat} (h : offset ≤ t.length) :
    (plain t).originAtOffset offset = none := by
  rw [originAtOffset_eq_trace (plain_proper t) h]
  rfl

/-- Where joined leaves end with a line feed, they are mapped to nothing at their end. -/
theorem originAtOffset_join_end (hleaves : ∀ d ∈ cs, d.IsLeaf)
    (hend : (join cs).text = [] ∨ (join cs).text.getLast? = some CodeUnit.newline) :
    (join cs).originAtOffset (join cs).text.length = none := by
  have hproper : ∀ d ∈ cs, d.Proper := fun d hd => (hleaves d hd).proper
  rw [originAtOffset_of_normalForm rfl (markedBy_join hproper) (Nat.le_refl _), Mark.trace]
  cases hm : Mark.governing? (join cs).text (joinMarks [] cs) (join cs).text.length with
  | none => rfl
  | some m =>
    rw [Option.bind_some, Mark.originOf, Option.map_eq_none_iff]
    by_contra horigin
    obtain ⟨o, ho⟩ := Option.ne_none_iff_exists'.mp horigin
    obtain ⟨hmem, hon⟩ := mem_of_latest hm
    -- the mark stands at a unit of a file, so the last unit is not in front of it
    obtain ⟨first, d, rest, rfl, own, hown, rfl⟩ := exists_of_mem_joinMarks hmem ho
    obtain ⟨t, name, rfl, hlt, -⟩ := (hleaves d (by simp)).exists_of_mem_marks hown
    have hlength : (own.move ([] ++ first.flatMap Composition.text).length).offset <
        (join (first ++ file t name :: rest)).text.length := by
      rw [text_join_around]
      simp only [Mark.move, text_join, List.nil_append, List.length_append]
      have : (file t name).text.length = t.length := rfl
      omega
    rcases hend with hnil | hlast
    · rw [hnil] at hlength
      cases hlength
    · refine (Text.onLine_iff.mp hon).2 ?_
      rw [List.take_length]
      apply List.mem_of_getLast?
      rw [List.getLast?_drop, if_neg (by omega), hlast]

/-- **A unit of a leaf comes from where the leaf says.** -/
theorem originAtOffset_join_leaves (hleaves : ∀ d ∈ before ++ c :: after, d.IsLeaf) {p : Nat}
    (hp : p < c.text.length) :
    (join (before ++ c :: after)).originAtOffset ((join before).text.length + p) =
      c.originAtOffset p := by
  have hproper : ∀ d ∈ before ++ c :: after, d.Proper := fun d hd => (hleaves d hd).proper
  refine (originAtOffset_join hproper hp).1.mpr fun hover => ?_
  have hmapped := hover.mapped
  rw [originAtOffset_join_end (fun d hd => hleaves d (by simp [hd])) hover.startsLine] at hmapped
  cases hmapped

/-- Joined leaves have an origin if and only if one of them is a file with a unit. -/
theorem exists_origin_join_iff (hleaves : ∀ d ∈ cs, d.IsLeaf) :
    (∀ m ∈ (join cs).mappings, m.origin = none) ↔ ∀ t name, file t name ∈ cs → t = [] := by
  have hproper : ∀ d ∈ cs, d.Proper := fun d hd => (hleaves d hd).proper
  constructor
  · intro hnone t name hfile
    by_contra ht
    obtain ⟨first, rest, rfl⟩ := List.append_of_mem hfile
    have hpositive : 0 < t.length := List.length_pos_iff.mpr ht
    have horigin := originAtOffset_join_leaves hleaves (p := 0) hpositive
    rw [originAtOffset_file t name hpositive (Nat.zero_le _)] at horigin
    obtain ⟨o, ho, -⟩ := Option.map_eq_some_iff.mp horigin
    obtain ⟨m, hm, own, hown, -⟩ := MappingTable.exists_of_trace? ho
    rw [hnone m hm] at hown
    cases hown
  · intro hempty m hm
    by_contra horigin
    obtain ⟨o, ho⟩ := Option.ne_none_iff_exists'.mp horigin
    have hmark : m.markIn (join cs).text (join cs).describe ∈ joinMarks [] cs :=
      marks_subset_of_normalForm rfl (markedBy_join hproper) (List.mem_map_of_mem hm)
    obtain ⟨first, d, rest, rfl, own, hown, -⟩ :=
      exists_of_mem_joinMarks hmark (by rw [Mapping.markIn, ho]; rfl)
    obtain ⟨t, name, rfl, hlt, -⟩ := (hleaves d (by simp)).exists_of_mem_marks hown
    rw [hempty t name (by simp)] at hlt
    cases hlt

/-! ## Bounds -/

/-- There is one entry at most for each offset of a text. -/
theorem Proper.length_mappings_le (h : c.Proper) : c.mappings.length ≤ c.text.length + 1 := by
  have hnodup : (c.mappings.map fun m => m.offsetIn c.text).Nodup := by
    refine List.pairwise_map.mpr (h.increasing.imp_of_mem fun {a b} ha hb hab heq => ?_)
    rw [Mapping.precedes_iff (h.inText a ha).placed (h.inText b hb).placed,
      (h.inText a ha).place_eq, (h.inText b hb).place_eq, heq] at hab
    omega
  have hsubset : (c.mappings.map fun m => m.offsetIn c.text) ⊆ List.range (c.text.length + 1) := by
    intro offset hoffset
    obtain ⟨m, hm, rfl⟩ := List.mem_map.mp hoffset
    exact List.mem_range.mpr (Nat.lt_succ_of_le (h.inText m hm).offsetIn_le)
  have hlength := (List.subperm_of_subset hnodup hsubset).length_le
  rwa [List.length_map, List.length_range] at hlength

/-- **The source map of a text has no numbers beyond the length of the text**, if its origins have
none. -/
theorem within_compact (h : c.Proper) {bound : Nat} (hlength : c.text.length ≤ bound)
    (horigins : ∀ m ∈ c.mappings, ∀ o ∈ m.origin, o.line.UpTo bound ∧ o.column.UpTo bound) :
    ∀ m ∈ c.mappings.compact, m.Within bound := by
  have hentries := h.length_mappings_le
  obtain ⟨hsources, hnames⟩ := MappingTable.length_used_le c.mappings
  intro m' hm'
  have hlisted := fun o => MappingTable.listed_of_mem_compact hm' (o := o)
  obtain ⟨m, hm, rfl⟩ := List.mem_map.mp hm'
  have hin := h.inText m hm
  have hle := hin.offsetIn_le
  obtain ⟨hline, hcolumn⟩ := Text.positionOf_le hle
  rw [← hin.place_eq] at hline hcolumn
  refine ⟨⟨m.place.line, by omega, hin.placed.line⟩, ⟨m.place.column, by omega, hin.placed.column⟩,
    fun o' ho' => ?_⟩
  obtain ⟨⟨n, hn, hsource⟩, hname⟩ := hlisted o' ho'
  obtain ⟨o, ho, rfl⟩ := Option.map_eq_some_iff.mp ho'
  obtain ⟨hl, hk⟩ := horigins m hm o ho
  refine ⟨⟨n, by omega, hsource⟩, hl, hk, fun i hi => ?_⟩
  obtain ⟨n', hn', hi⟩ := hname i hi
  exact ⟨n', by omega, hi⟩

/-- The origins in joined leaves are bounded by the length of the text. -/
theorem upTo_of_mem_join (hleaves : ∀ d ∈ cs, d.IsLeaf) {m : Mapping} (hm : m ∈ (join cs).mappings)
    {o : Location} (ho : o ∈ m.origin) :
    o.line.UpTo (join cs).text.length ∧ o.column.UpTo (join cs).text.length := by
  have hproper : ∀ d ∈ cs, d.Proper := fun d hd => (hleaves d hd).proper
  have hmark : m.markIn (join cs).text (join cs).describe ∈ joinMarks [] cs :=
    marks_subset_of_normalForm rfl (markedBy_join hproper) (List.mem_map_of_mem hm)
  have horigin : (m.markIn (join cs).text (join cs).describe).origin =
      some ((join cs).describe o) := by
    rw [Mapping.markIn, Option.mem_def.mp ho]
    rfl
  obtain ⟨first, d, rest, rfl, own, hown, hmove⟩ := exists_of_mem_joinMarks hmark horigin
  obtain ⟨t, name, rfl, hlt, hownOrigin⟩ := (hleaves d (by simp)).exists_of_mem_marks hown
  rw [hmove, Mark.move, hownOrigin, Option.some.injEq] at horigin
  obtain ⟨hline, hcolumn⟩ := Text.positionOf_le (Nat.le_of_lt hlt)
  have hlength : t.length ≤ (join (first ++ file t name :: rest)).text.length := by
    rw [text_join_around, List.length_append, List.length_append]
    have : (file t name).text.length = t.length := rfl
    omega
  exact ⟨⟨_, by omega, (congrArg OriginPosition.line horigin).symm⟩,
    ⟨_, by omega, (congrArg OriginPosition.column horigin).symm⟩⟩

/-! ## The source map -/

/-- **The source map of joined leaves** gives every unit the place where it stands in its own leaf, if
that is a file.  It exists if a file has a unit, the text is moderately long and the text of the map's
entries is not too long. -/
theorem toMap_join_leaves (hleaves : ∀ d ∈ cs, d.IsLeaf)
    (hlength : (join cs).text.length ≤ Vlq.maxMagnitude)
    (hfile : ∃ t name, file t name ∈ cs ∧ t ≠ []) :
    ∃ mappings, (join cs).mappings.compact.HasText mappings ∧
      (mappings.length ≤ Text.maxLength → ∃ M table, (join cs).toMap {} = .ok (some M) ∧
        MappingTable.decode M.mappings = .ok table ∧
        ∀ before leaf after, cs = before ++ leaf :: after → ∀ p < leaf.text.length,
          let place := (join cs).text.positionOf ((join before).text.length + p)
          M.positionIn table (place.line : Number) (place.column : Number) =
            leaf.originAtOffset p) ∧
      (Text.maxLength < mappings.length → (join cs).toMap {} = .error (.encode .textTooLong)) := by
  have hproper := join_proper fun d hd => (hleaves d hd).proper
  have hplaced := hproper.markedBy.placed
  have horder := (MappingTable.inOrder_iff_sorted hplaced).mpr (hproper.increasing.sorted hplaced)
  have hsome : ∃ m ∈ (join cs).mappings, m.origin.isSome := by
    by_contra hnone
    push Not at hnone
    obtain ⟨t, name, hmem, ht⟩ := hfile
    exact ht ((exists_origin_join_iff hleaves).mp
      (fun m hm => Option.not_isSome_iff_eq_none.mp (hnone m hm)) t name hmem)
  have hwithin := within_compact hproper hlength fun m hm o ho => by
    obtain ⟨⟨l, hl, hline⟩, ⟨k, hk, hcolumn⟩⟩ := upTo_of_mem_join hleaves hm ho
    exact ⟨⟨l, Nat.le_trans hl hlength, hline⟩, ⟨k, Nat.le_trans hk hlength, hcolumn⟩⟩
  obtain ⟨mappings, htext, hfits, hlong⟩ :=
    @toMap_of_compact_within (join cs) {} rfl rfl horder hproper.known hwithin hsome
  refine ⟨mappings, htext, fun hroom => ?_, hlong⟩
  obtain ⟨M, table, hM, htable, hdescribed⟩ := hfits hroom
  refine ⟨M, table, hM, htable, fun before leaf after hsplit p hp => ?_⟩
  rw [← originAtOffset_join_leaves (by rwa [← hsplit]) hp, ← hsplit]
  exact hdescribed.positions _ _

end Provenance.Composition
