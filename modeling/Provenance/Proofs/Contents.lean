/-
# Contents of sources

A source table records for each source the first content that was supplied for it.  It is told by its
names in their order and by what it records for each of them, so that sources may be gathered with their
contents in a table of their own before they are added.

The main facts:

* `recorded_intern`, `recorded_internAll` : the content recorded for a source is the first one supplied
  for it;
* `content?_eq_recorded` : the content at an index is the one recorded for the source there;
* `ext_of_recorded` : tables with the same names that record the same contents are equal;
* `internAll_internAll_entries` : sources may be gathered in a table of their own first.
-/
import Provenance.Proofs.Table

namespace Provenance

/-- The first content supplied for a source among entries. -/
def firstContent (s : Text) (entries : List (Text × Option Text)) : Option Text :=
  entries.findSome? fun e => if e.1 = s then e.2 else none

theorem firstContent_append (s : Text) (xs ys : List (Text × Option Text)) :
    firstContent s (xs ++ ys) = (firstContent s xs).or (firstContent s ys) :=
  List.findSome?_append

theorem firstContent_cons (s : Text) (e : Text × Option Text) (rest : List (Text × Option Text)) :
    firstContent s (e :: rest) = (if e.1 = s then e.2 else none).or (firstContent s rest) := by
  rw [← List.singleton_append, firstContent_append, firstContent, List.findSome?_singleton]

/-- No content is supplied for a source that does not occur. -/
theorem firstContent_of_not_mem {s : Text} {entries : List (Text × Option Text)}
    (h : s ∉ entries.map Prod.fst) : firstContent s entries = none := by
  rw [firstContent, List.findSome?_eq_none_iff]
  intro e he
  rw [if_neg]
  rintro rfl
  exact h (List.mem_map_of_mem he)

namespace ContentTable

variable {t t' : ContentTable} {s : Text} {content : Option Text}

/-- The content that a table records for a source. -/
def recorded (t : ContentTable) (s : Text) : Option Text := firstContent s t.entries

/-- Where no source stands twice, a source is cut out of the entries in one way. -/
theorem exists_cut_of_idxOf? (h : t.names.texts.Nodup) {i : Nat} (hi : t.names.indexOf? s = some i) :
    ∃ before after known, t.entries = before ++ (s, known) :: after ∧ before.length = i ∧
      s ∉ before.map Prod.fst ∧ s ∉ after.map Prod.fst := by
  obtain ⟨hlt, hs, -⟩ := List.idxOf?_eq_some_iff.mp hi
  have hlt' : i < t.entries.length := by simpa [names] using hlt
  have hs' : t.entries[i].1 = s := by simpa [names] using hs
  have hcut : t.entries = t.entries.take i ++ (s, t.entries[i].2) :: t.entries.drop (i + 1) := by
    conv_lhs => rw [← List.take_append_drop i t.entries, List.drop_eq_getElem_cons hlt']
    rw [← hs']
  refine ⟨_, _, _, hcut, by rw [List.length_take]; omega, ?_⟩
  have hnodup : (t.entries.map Prod.fst).Nodup := h
  rw [hcut, List.map_append, List.map_cons, List.nodup_append, List.nodup_cons] at hnodup
  exact ⟨fun hmem => hnodup.2.2 s hmem s List.mem_cons_self rfl, hnodup.2.1.1⟩

theorem map_fst_pair (given : List Text) (contents : List (Option Text)) :
    (pair given contents).map Prod.fst = given := by
  induction given generalizing contents with
  | nil => rfl
  | cons s rest ih => cases contents <;> simp [pair, ih]

/-- The sources of entries, paired with their contents, are the entries. -/
theorem pair_entries (entries : List (Text × Option Text)) :
    pair (entries.map Prod.fst) (entries.map Prod.snd) = entries := by
  induction entries with
  | nil => rfl
  | cons e rest ih => simp [pair, ih]

/-- **The first content supplied for a source is recorded.** -/
theorem recorded_intern (h : t.names.texts.Nodup) (s : Text) (content : Option Text) (x : Text) :
    (t.intern s content).2.recorded x = (t.recorded x).or (if s = x then content else none) := by
  unfold recorded intern
  cases hi : t.names.indexOf? s with
  | none =>
    simp only [firstContent_append, firstContent_cons]
    congr 1
    exact Option.or_none
  | some i =>
    obtain ⟨before, after, known, hcut, rfl, hbefore, hafter⟩ := exists_cut_of_idxOf? h hi
    have hmodify : t.entries.modify before.length (fun e => (e.1, e.2.or content)) =
        before ++ (s, known.or content) :: after := by
      rw [hcut, List.modify_eq_take_cons_drop (by simp)]
      simp
    show firstContent x (t.entries.modify before.length fun e => (e.1, e.2.or content)) = _
    rw [hmodify, hcut, firstContent_append, firstContent_append, firstContent_cons, firstContent_cons]
    by_cases hx : s = x
    · -- nothing else is supplied for the source
      subst hx
      simp [firstContent_of_not_mem hbefore, firstContent_of_not_mem hafter]
    · simp [hx]

theorem recorded_internAll (h : t.names.texts.Nodup) (entries : List (Text × Option Text)) (x : Text) :
    (t.internAll entries).2.recorded x = (t.recorded x).or (firstContent x entries) := by
  induction entries generalizing t with
  | nil => exact Option.or_none.symm
  | cons e rest ih =>
    rw [show (t.internAll (e :: rest)).2 = ((t.intern e.1 e.2).2.internAll rest).2 from rfl,
      ih (nodup_intern h _ _), recorded_intern h, firstContent_cons, Option.or_assoc]

/-- The content of an entry is the one recorded for its source. -/
theorem recorded_of_mem (h : t.names.texts.Nodup) (hmem : (s, content) ∈ t.entries) :
    t.recorded s = content := by
  obtain ⟨before, after, hcut⟩ := List.append_of_mem hmem
  have hnodup : (t.entries.map Prod.fst).Nodup := h
  rw [hcut, List.map_append, List.map_cons, List.nodup_append, List.nodup_cons] at hnodup
  have hbefore : s ∉ before.map Prod.fst := fun hmem =>
    hnodup.2.2 s hmem s List.mem_cons_self rfl
  rw [recorded, hcut, firstContent_append, firstContent_cons, firstContent_of_not_mem hbefore,
    firstContent_of_not_mem hnodup.2.1.1]
  simp

/-- The content at an index is the one recorded for the source there. -/
theorem content?_eq_recorded (h : t.names.texts.Nodup) {index : Number}
    (hs : t.names.get? index = some s) : t.content? index = t.recorded s := by
  obtain ⟨i, hi, his⟩ := Option.bind_eq_some_iff.mp hs
  rw [names, List.getElem?_map, Option.map_eq_some_iff] at his
  obtain ⟨⟨s', content⟩, hentry, rfl⟩ := his
  rw [recorded_of_mem h (List.mem_of_getElem? hentry), content?, hi, Option.bind_some, contents,
    List.getElem?_map, hentry]
  rfl

/-- **Tables with the same names that record the same contents are equal.** -/
theorem ext_of_recorded (h : t.names.texts.Nodup) (hnames : t.names = t'.names)
    (hrecorded : ∀ s, t.recorded s = t'.recorded s) : t = t' := by
  have hfst : t.entries.map Prod.fst = t'.entries.map Prod.fst := congrArg TextTable.texts hnames
  have hentries : ∀ t : ContentTable, t.names.texts.Nodup →
      t.entries = (t.entries.map Prod.fst).map fun s => (s, t.recorded s) := by
    intro t ht
    rw [List.map_map]
    conv_lhs => rw [← List.map_id t.entries]
    apply List.map_congr_left
    rintro ⟨s, content⟩ hmem
    simp [recorded_of_mem ht hmem]
  refine ContentTable.mk.injEq .. ▸ ?_
  rw [hentries t h, hentries t' (hnames ▸ h), hfst]
  exact List.map_congr_left fun s _ => by rw [hrecorded s]

theorem internAll_append (t : ContentTable) (xs ys : List (Text × Option Text)) :
    (t.internAll (xs ++ ys)).2 = ((t.internAll xs).2.internAll ys).2 := by
  induction xs generalizing t with
  | nil => rfl
  | cons e _ ih => exact ih _

/-- **Sources may be gathered with their contents in a table of their own first.** -/
theorem internAll_internAll_entries (h : t.names.texts.Nodup) (entries : List (Text × Option Text)) :
    (t.internAll (ContentTable.internAll {} entries).2.entries).2 = (t.internAll entries).2 := by
  refine ext_of_recorded (nodup_internAll h _) ?_ fun s => ?_
  · have hgathered := congrArg TextTable.texts (names_internAll {} entries).1
    rw [(t.names_internAll _).1, (t.names_internAll _).1]
    exact (congrArg (fun ss => (t.names.internAll ss).2) hgathered).trans
      (t.names.internAll_internAll _)
  · rw [recorded_internAll h, recorded_internAll h]
    exact congrArg _ ((recorded_internAll nodup_empty entries s).trans Option.none_or)

/-- Sources that differ are recorded as they are. -/
theorem internAll_entries_of_nodup (h : t.names.texts.Nodup) :
    (ContentTable.internAll {} t.entries).2 = t := by
  have hnames : (TextTable.internAll {} t.names.texts).2 = t.names :=
    congrArg Prod.snd (TextTable.internAll_of_nodup (t := {}) h)
  refine ext_of_recorded (nodup_internAll nodup_empty _) ?_ fun s => ?_
  · rw [(names_internAll {} t.entries).1]
    exact hnames
  · exact (recorded_internAll nodup_empty t.entries s).trans Option.none_or

end ContentTable

end Provenance
