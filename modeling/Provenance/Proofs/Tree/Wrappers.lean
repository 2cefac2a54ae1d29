/-
# Wrappers that change nothing

A source that is joined with nothing else, or with an empty text before it, a source that no edit is made
in, and a source that is remembered are composed to the result of the source itself.  Joining and editing
rebuild the tables of a result; what they rebuild has the marks of the result, so that they come back to
the same tables.

The main facts:

* `join_singleton`, `join_plain_nil`, `edit_nil` : what joining and editing make of one result;
* `compositionAt_wrappers` : wrappers that change nothing are composed to the result of the source.
-/
import Provenance.Proofs.Composition.Canonical
import Provenance.Proofs.Contents
import Provenance.Proofs.Tree.Regular

namespace Provenance

namespace Composition

variable {c : Composition}

/-- The tables of a tidy result are what they are merged to. -/
theorem joinFrom_singleton_tables (htidy : c.Tidy) :
    (joinFrom {} [c]).2 = (c.sources, c.names) := by
  have hnames : (TextTable.internAll {} c.names.texts).2 = c.names :=
    congrArg Prod.snd (TextTable.internAll_of_nodup (t := {}) htidy.names)
  simp only [joinFrom, ContentTable.internAll_entries_of_nodup htidy.sources, hnames]

/-- **A result that is joined with nothing else stays as it is.** -/
theorem join_singleton (hproper : c.Proper) (htidy : c.Tidy) : join [c] = c := by
  have htables := joinFrom_singleton_tables htidy
  have htext : (join [c]).text = c.text := by simp [text_join]
  have hmarked : MarkedBy (join [c]).text (joinFrom {} [c]).2.1.names (joinFrom {} [c]).2.2
      (joinFrom {} [c]).1 (joinMarks [] [c]) := markedBy_join (by simpa using hproper)
  rw [htext, htables, joinMarks_singleton] at hmarked
  have hmappings := normalForm_eq_mappings hproper htidy hmarked fun _ _ => rfl
  unfold join
  simp only [hmappings, htables]
  cases c
  simp

/-- An empty text in front of results adds nothing. -/
theorem join_plain_nil (cs : List Composition) : join (plain [] :: cs) = join cs := by
  have hentries : joinFrom {} (plain [] :: cs) = joinFrom {} cs := rfl
  unfold join
  rw [hentries]
  simp [plain]

theorem movedMarks_nil (c : Composition) : movedMarks c [] = c.marks := by
  unfold movedMarks
  simp [isReplaced, movedOffset, gainBefore]

/-- **A result that no edit is made in stays as it is.** -/
theorem edit_nil (hproper : c.Proper) (htidy : c.Tidy) : c.edit [] = c := by
  have htext : (c.edit []).text = c.text := by
    rw [text_edit, Edit.splice_eq]
    rfl
  have horder : Edit.InOrder c.text.length 0 [] := Nat.zero_le _
  have hmarked := markedBy_edit hproper horder
  rw [htext, movedMarks_nil, show editMarks c 0 [] = [] from rfl, List.append_nil] at hmarked
  have hmappings := normalForm_eq_mappings hproper htidy hmarked fun _ _ => rfl
  rw [← htext] at hmappings
  cases c
  exact Composition.mk.injEq .. ▸ ⟨htext, hmappings, rfl, rfl, rfl⟩

end Composition

namespace Source

variable {limit : Number} {depth : Nat} {s : Source} {c : Composition}

/-- What the parts of a source are joined to is the result of the source. -/
theorem exists_parts (hs : s.Constructed) (h : compositionAt limit depth s = .ok c) :
    ∃ cs, List.Forall₂ (fun t d => compositionAt limit depth t = .ok d) s.parts cs ∧
      Composition.join cs = c := by
  cases s with
  | joined id children =>
    obtain ⟨cs, hcs, hjoin⟩ := compositionAt_joined.mp h
    exact ⟨cs, compositionsAt_eq_ok hcs, hjoin⟩
  | _ =>
    exact ⟨[c], .cons h .nil,
      Composition.join_singleton (compositionAt_proper hs h).1 (compositionAt_tidy h)⟩

/-- A source is composed to what the results of its parts are joined to. -/
theorem compositionAt_of_parts (hs : s.Constructed) {cs : List Composition}
    (h : List.Forall₂ (fun t d => compositionAt limit depth t = .ok d) s.parts cs) :
    compositionAt limit depth s = .ok (.join cs) := by
  cases s with
  | joined id children => exact compositionAt_joined.mpr ⟨cs, compositionsAt_of_forall₂ h, rfl⟩
  | _ =>
    cases h with
    | cons hd hrest =>
      cases hrest
      rw [hd, Composition.join_singleton (compositionAt_proper hs hd).1 (compositionAt_tidy hd)]

/-- **Wrappers that change nothing are composed to the result of the source**: joining a source with
nothing else, or with an empty text before it, making no replacement in it, and remembering it. -/
theorem compositionAt_wrappers (hs : s.Constructed) (h : compositionAt limit depth s = .ok c)
    (id : NodeId) :
    compositionAt limit depth (joined id (flattenAll [s])) = .ok c ∧
    compositionAt limit depth (joined id (flattenAll [plain [], s])) = .ok c ∧
    (∃ edits, checkReplacements (text s) [] = .ok edits ∧
      compositionAt limit depth (edited id s edits) = .ok c) ∧
    compositionAt limit depth (kept id s) = .ok c := by
  have hproper := (compositionAt_proper hs h).1
  obtain ⟨cs, hcs, hjoin⟩ := exists_parts hs h
  have hempty := compositionAt_plain limit depth []
  refine ⟨?_, ?_, ⟨[], rfl, ?_⟩, ?_⟩
  · rw [flattenAll, List.flatMap_singleton]
    exact compositionAt_joined.mpr ⟨cs, compositionsAt_of_forall₂ hcs, hjoin⟩
  · rw [flattenAll, List.flatMap_cons, List.flatMap_singleton]
    exact compositionAt_joined.mpr ⟨.plain [] :: cs,
      compositionsAt_of_forall₂ (.cons hempty hcs), (Composition.join_plain_nil cs).trans hjoin⟩
  · exact compositionAt_edited.mpr ⟨c, h, Composition.edit_nil hproper (compositionAt_tidy h)⟩
  · rw [compositionAt_kept, h]

/-- Wrappers of a text whose second line has a name. -/
theorem compositionAt_wrappers_named :
    let s := generated 0
      ⟨"a\nb", "x.js", ⟨["a.js"], none, ["n"], "AAAA;CACAA", none, none⟩, none, false, false⟩ []
    ∃ c, compositionAt (32 : Nat) 0 s = .ok c ∧
      c.mappings = [⟨0, 0, some ⟨0, 0, 0, none⟩⟩, ⟨1, 1, some ⟨0, 1, 0, some 0⟩⟩] ∧
      compositionAt (32 : Nat) 0 (joined 1 (flattenAll [plain [], s])) = .ok c ∧
      compositionAt (32 : Nat) 0 (edited 1 s []) = .ok c := by
  intro s
  have hdecode : MappingTable.decode "AAAA;CACAA" =
      .ok [⟨0, 0, some ⟨0, 0, 0, none⟩⟩, ⟨1, 1, some ⟨0, 1, 0, some 0⟩⟩] := by decide +kernel
  have hs : s.Constructed := .generated hdecode (by decide +kernel) (by simp)
  have hc : compositionAt (32 : Nat) 0 s = .ok ⟨"a\nb", [⟨0, 0, some ⟨0, 0, 0, none⟩⟩,
      ⟨1, 1, some ⟨0, 1, 0, some 0⟩⟩], ⟨[("a.js", none)]⟩, ⟨["n"]⟩, 0⟩ := by decide +kernel
  obtain ⟨-, hempty, ⟨edits, hedits, hedited⟩, -⟩ := compositionAt_wrappers hs hc 1
  obtain rfl : [] = edits := Except.ok.inj hedits
  exact ⟨_, hc, rfl, hempty, hedited⟩

end Source

end Provenance
