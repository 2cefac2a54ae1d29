/-
# Histories of tables

Every table of a family has a history: what it was given when it was made, and what has been added to
it since; a copy starts with the history of the table that it was copied from.  What a table is depends
on its history alone.  It has the texts of its history, each once and in the order in which they were
first given, and the first content supplied for each.

The main facts:

* `texts_ofList` : the texts of a table are those given to it, each where it first occurs;
* `Kept.runAll` : what additions and copies keep holds of all tables after a run;
* `exists_extends_runAll` : a table only grows;
* `runAll_consistent` : every run leaves all tables of a family as their histories tell.
-/
import Provenance.Proofs.Except
import Provenance.Proofs.Table.Indexed

namespace Provenance

/-- What has been given to a table: texts, each with the content that was supplied with it. -/
abbrev History := List (Text × Option Text)

/-! ## Texts in the order in which they were first given -/

namespace TextTable

theorem texts_intern_eraseDups {t : TextTable} {given : List Text} (h : t.texts = given.eraseDups)
    (s : Text) : (t.intern s).2.texts = (given ++ [s]).eraseDups := by
  rw [texts_intern, h, List.eraseDups_append]
  by_cases hs : s ∈ given
  · have hnone : [s].removeAll given = [] := by simp [List.removeAll, hs]
    rw [if_pos (List.mem_eraseDups.mpr hs), hnone, List.eraseDups_nil, List.append_nil]
  · have hsome : [s].removeAll given = [s] := by simp [List.removeAll, hs]
    rw [if_neg (List.mem_eraseDups.not.mpr hs), hsome]
    rfl

/-- **The texts of a table are those given to it, each where it first occurs.** -/
theorem texts_ofList (given : List Text) : (ofList given).texts = given.eraseDups := by
  unfold ofList
  induction given using List.reverseRecOn with
  | nil => rfl
  | append_singleton given s ih =>
    rw [internAll_append]
    exact texts_intern_eraseDups ih s

theorem nodup_eraseDups (given : List Text) : given.eraseDups.Nodup := by
  rw [← texts_ofList]
  exact nodup_internAll List.nodup_nil given

/-- A table made of the texts of a table is that table. -/
theorem ofList_texts {t : TextTable} (h : t.texts.Nodup) : ofList t.texts = t :=
  congrArg Prod.snd (internAll_of_nodup (t := {}) h)

theorem getElem?_of_indexOf? {t : TextTable} {s : Text} {i : Nat} (h : t.indexOf? s = some i) :
    t.texts[i]? = some s := by
  obtain ⟨hlt, hs, -⟩ := List.idxOf?_eq_some_iff.mp h
  exact List.getElem?_eq_some_iff.mpr ⟨hlt, hs⟩

/-- In a table without repetitions texts and indices are told from each other. -/
theorem indexOf?_eq_some_iff {t : TextTable} (h : t.texts.Nodup) {s : Text} {i : Nat} :
    t.indexOf? s = some i ↔ t.texts[i]? = some s := by
  refine ⟨getElem?_of_indexOf?, fun hi => ?_⟩
  cases hindex : t.indexOf? s with
  | none => exact absurd (List.mem_of_getElem? hi) (List.idxOf?_eq_none_iff.mp hindex)
  | some j =>
    have hlt := (List.getElem?_eq_some_iff.mp hi).1
    rw [(List.getElem?_inj hlt h).mp (hi.trans (getElem?_of_indexOf? hindex).symm)]

/-- A larger table gives a text the index that it has in a smaller one. -/
theorem indexOf?_of_extends {larger smaller : TextTable} (h : larger.Extends smaller)
    (hnodup : larger.texts.Nodup) {s : Text} {i : Nat} (hi : smaller.indexOf? s = some i) :
    larger.indexOf? s = some i := by
  rw [indexOf?_eq_some_iff hnodup, ← get?_natCast]
  exact get?_of_extends h (by rw [get?_natCast, getElem?_of_indexOf? hi])

/-- A table of the texts that it was given: each of them once, in the order in which they were first
given, and with an index from which it is got back. -/
structure Lists (t : TextTable) (given : List Text) : Prop where
  nodup : t.texts.Nodup
  inOrder : t.texts = given.eraseDups
  index : ∀ i < t.size, ∃ s, t.get (i : Number) = .ok s ∧ t.indexOf? s = some i

theorem lists_of_texts {t : TextTable} {given : List Text} (h : t.texts = given.eraseDups) :
    t.Lists given := by
  have hnodup : t.texts.Nodup := h ▸ nodup_eraseDups given
  refine ⟨hnodup, h, fun i hi => ?_⟩
  have hget : t.texts[i]? = some t.texts[i] := List.getElem?_eq_getElem hi
  exact ⟨t.texts[i], get_eq_ok_iff.mpr (by rw [get?_natCast, hget]),
    (indexOf?_eq_some_iff hnodup).mpr hget⟩

end TextTable

namespace ContentTable

/-- A table made of the sources of a table with their contents is that table. -/
theorem ofList_names_contents {t : ContentTable} (h : t.names.texts.Nodup) :
    ofList t.names.texts t.contents = t := by
  unfold ofList names contents
  rw [pair_entries]
  exact internAll_entries_of_nodup h

theorem names_ofList (given : List Text) (contents : List (Option Text)) :
    (ofList given contents).names = TextTable.ofList given := by
  unfold ofList
  rw [(names_internAll {} _).1, map_fst_pair]
  rfl

theorem recorded_ofList (given : List Text) (contents : List (Option Text)) (s : Text) :
    (ofList given contents).recorded s = firstContent s (pair given contents) :=
  (recorded_internAll nodup_empty _ s).trans Option.none_or

end ContentTable

/-! ## Laws of both kinds of tables -/

/-- String tables and source tables give indices alike, and a copy of either is the same table. -/
class LawfulInterning (T : Type) [Interning T] : Prop where
  names_intern (t : T) (s : Text) (content : Option Text) :
    Interning.names (Interning.intern t s content).2 = ((Interning.names t).intern s).2
  index_intern (t : T) (s : Text) (content : Option Text) :
    (Interning.intern t s content).1 = ((Interning.names t).intern s).1
  copy_eq (t : T) (h : (Interning.names t).texts.Nodup) : Interning.copy t = t

instance : LawfulInterning TextTable where
  names_intern _ _ _ := rfl
  index_intern _ _ _ := rfl
  copy_eq _ h := TextTable.ofList_texts h

instance : LawfulInterning ContentTable where
  names_intern t s content := (t.names_intern s content).1
  index_intern t s content := (t.names_intern s content).2
  copy_eq _ h := ContentTable.ofList_names_contents h

open Interning (names copy)

namespace TableRequest

variable {T : Type} [Interning T] {tables : List T} {histories : List History} {t : T} {n : Nat}

/-! ## Histories -/

/-- The histories of a family after a request. -/
def record (r : TableRequest) (histories : List History) : List History :=
  match r with
  | intern n s content => histories.modify n (· ++ [(s, content)])
  | clone n => histories ++ (histories[n]?).toList
  | ask _ _ => histories

/-- The histories of a family after some requests. -/
def recordAll (histories : List History) (rs : List TableRequest) : List History :=
  rs.foldl (fun histories r => r.record histories) histories

/-- A relation of tables to their histories that additions and copies keep. -/
structure Kept (P : T → History → Prop) : Prop where
  intern : ∀ t history s content, P t history →
    P (Interning.intern t s content).2 (history ++ [(s, content)])
  copy : ∀ t history, P t history → P (copy t) history

variable {P : T → History → Prop}

/-- What an addition keeps holds of all tables when one of them is added to. -/
theorem Kept.add (hkept : Kept P) (h : List.Forall₂ P tables histories) (ht : tables[n]? = some t)
    (s : Text) (content : Option Text) :
    List.Forall₂ P (tables.set n (Interning.intern t s content).2)
      (histories.modify n (· ++ [(s, content)])) := by
  induction h generalizing n with
  | nil => simp at ht
  | cons hP hrest ih =>
    cases n with
    | zero =>
      obtain rfl : _ = t := by simpa using ht
      exact .cons (hkept.intern _ _ s content hP) hrest
    | succ n => exact .cons hP (ih (by simpa using ht))

/-- What additions and copies keep holds of all tables after a request. -/
theorem Kept.run (hkept : Kept P) (r : TableRequest) (h : List.Forall₂ P tables histories) :
    List.Forall₂ P (r.run tables).2 (r.record histories) := by
  cases r with
  | intern n s content =>
    simp only [TableRequest.run, record]
    rcases getElem?_of_forall₂ h n with ⟨ht, hhistory⟩ | ⟨t, history, ht, -, -⟩
    · rw [ht, List.modify_eq_self (List.getElem?_eq_none_iff.mp hhistory)]
      exact h
    · rw [ht]
      exact hkept.add h ht s content
  | clone n =>
    simp only [TableRequest.run, record]
    rcases getElem?_of_forall₂ h n with ⟨ht, hhistory⟩ | ⟨t, history, ht, hhistory, hP⟩
    · rw [ht, hhistory]
      exact (List.append_nil histories).symm ▸ h
    · rw [ht, hhistory]
      exact List.rel_append h (.cons (hkept.copy t history hP) .nil)
  | ask n q =>
    simp only [TableRequest.run, record]
    cases tables[n]? <;> exact h

/-- **What additions and copies keep holds of all tables after a run.** -/
theorem Kept.runAll (hkept : Kept P) (rs : List TableRequest) (h : List.Forall₂ P tables histories) :
    List.Forall₂ P (runAll tables rs).2 (recordAll histories rs) := by
  induction rs generalizing tables histories with
  | nil => exact h
  | cons r rest ih => exact ih (hkept.run r h)

/-! ## Growth -/

variable [LawfulInterning T]

/-- The texts of a table stay where they are when a request is answered. -/
theorem exists_extends_run (r : TableRequest) (ht : tables[n]? = some t) :
    ∃ t', (r.run tables).2[n]? = some t' ∧ (names t').Extends (names t) := by
  have hlt := (List.getElem?_eq_some_iff.mp ht).1
  by_cases hadds : ∃ s content, r = .intern n s content
  · obtain ⟨s, content, rfl⟩ := hadds
    refine ⟨(Interning.intern t s content).2, ?_, ?_⟩
    · simp only [TableRequest.run, ht]
      exact List.getElem?_set_self hlt
    · rw [LawfulInterning.names_intern]
      exact (names t).extends_intern s
  · have hother := run_other r tables n hlt fun s content e => hadds ⟨s, content, e⟩
    exact ⟨t, hother.trans ht, .refl _⟩

/-- **A table only grows.** -/
theorem exists_extends_runAll (rs : List TableRequest) (ht : tables[n]? = some t) :
    ∃ t', (runAll tables rs).2[n]? = some t' ∧ (names t').Extends (names t) := by
  induction rs generalizing tables t with
  | nil => exact ⟨t, ht, .refl _⟩
  | cons r rest ih =>
    obtain ⟨t', ht', hextends'⟩ := exists_extends_run r ht
    obtain ⟨t'', ht'', hextends''⟩ := ih ht'
    exact ⟨t'', ht'', hextends''.trans hextends'⟩

/-! ## Consistency -/

/-- Tables are kept consistent with their histories. -/
structure Consistent (tables : List T) (histories : List History) : Prop where
  /-- Each table lists the texts of its own history. -/
  lists : List.Forall₂ (fun t history => (names t).Lists (history.map Prod.fst)) tables histories
  /-- The index that is given for a text is one from which the text is got back. -/
  interned : ∀ (n : Nat) (t : T) s content, tables[n]? = some t → ∃ (i : Nat) (t' : T),
    (intern n s content).run tables = (.index (some i), tables.set n t') ∧
      (names t').get (i : Number) = .ok s
  /-- A copy is the same table, under a number of its own. -/
  cloned : ∀ (n : Nat) (t : T), tables[n]? = some t →
    (clone n).run tables = (.cloned tables.length, tables ++ [t])
  /-- A request changes no table but the one it adds to. -/
  others : ∀ (r : TableRequest) n, n < tables.length → (∀ s content, r ≠ .intern n s content) →
    (r.run tables).2[n]? = tables[n]?
  /-- An index that has been given is never given to another text. -/
  stable : ∀ later (n : Nat) (t : T), tables[n]? = some t → ∃ t' : T,
    (runAll tables later).2[n]? = some t' ∧
      (∀ i s, (names t).get i = .ok s → (names t').get i = .ok s) ∧
      ∀ s i, (names t).indexOf? s = some i → (names t').indexOf? s = some i

theorem kept_lists :
    Kept fun (t : T) history => (names t).Lists (history.map Prod.fst) where
  intern t history s content h := by
    refine TextTable.lists_of_texts ?_
    rw [LawfulInterning.names_intern, List.map_append]
    exact TextTable.texts_intern_eraseDups h.inOrder s
  copy t history h := by rwa [LawfulInterning.copy_eq t h.nodup]

/-- Tables that list the texts of their histories are consistent. -/
theorem consistent_of_lists
    (h : List.Forall₂ (fun t history => (names t).Lists (history.map Prod.fst)) tables histories) :
    Consistent tables histories where
  lists := h
  interned n t s content ht := by
    refine ⟨(Interning.intern t s content).1, (Interning.intern t s content).2, ?_, ?_⟩
    · simp only [TableRequest.run, ht]
    · rw [LawfulInterning.names_intern, LawfulInterning.index_intern, TextTable.get_eq_ok_iff]
      exact (names t).get?_intern s
  cloned n t ht := by
    obtain ⟨history, -, hlists⟩ := exists_getElem?_of_forall₂ h ht
    simp only [TableRequest.run, ht, LawfulInterning.copy_eq t hlists.nodup]
  others r n hlt hr := run_other r tables n hlt hr
  stable later n t ht := by
    obtain ⟨t', ht', hextends⟩ := exists_extends_runAll later ht
    obtain ⟨history, -, hlists⟩ := exists_getElem?_of_forall₂ (kept_lists.runAll later h) ht'
    refine ⟨t', ht', fun i s hi => ?_, fun s i hi => ?_⟩
    · rw [TextTable.get_eq_ok_iff] at hi ⊢
      exact TextTable.get?_of_extends hextends hi
    · exact TextTable.indexOf?_of_extends hextends hlists.nodup hi

theorem kept_recorded :
    Kept fun (t : ContentTable) history =>
      t.names.Lists (history.map Prod.fst) ∧ ∀ s, t.recorded s = firstContent s history where
  intern t history s content h := by
    refine ⟨kept_lists.intern t history s content h.1, fun x => ?_⟩
    have hgiven : firstContent x [(s, content)] = if s = x then content else none := by
      simp [firstContent]
    rw [firstContent_append, hgiven, ← h.2 x]
    exact ContentTable.recorded_intern h.1.nodup s content x
  copy t history h := by
    rw [LawfulInterning.copy_eq t h.1.nodup]
    exact h

/-- A table lists the texts that it is started from. -/
theorem lists_start (initials : List (List Text)) :
    List.Forall₂ (fun t (history : History) => (names t).Lists (history.map Prod.fst))
      (initials.map TextTable.ofList)
      (initials.map fun initial => initial.map fun s => (s, none)) := by
  refine forall₂_map fun initial => TextTable.lists_of_texts ?_
  rw [List.map_map]
  exact (TextTable.texts_ofList initial).trans (congrArg _ (List.map_id initial).symm)

/-- A source table lists the sources that it is started from, with the first content of each. -/
theorem recorded_start (sources : List (List Text × List (Option Text))) :
    List.Forall₂
      (fun t (history : History) =>
        t.names.Lists (history.map Prod.fst) ∧ ∀ s, t.recorded s = firstContent s history)
      (sources.map fun given => ContentTable.ofList given.1 given.2)
      (sources.map fun given => ContentTable.pair given.1 given.2) := by
  refine forall₂_map fun given => ⟨TextTable.lists_of_texts ?_, ?_⟩
  · rw [ContentTable.names_ofList, ContentTable.map_fst_pair]
    exact TextTable.texts_ofList given.1
  · exact ContentTable.recorded_ofList given.1 given.2

/-- **Every run leaves all tables of a family as their histories tell.**  The tables may be started from
any texts, in which one may stand more than once; source tables also have the first content that is
supplied for each source.  Tables with an index, whose texts, places and contents are kept apart, give the
same answers and stand for the same tables. -/
theorem runAll_consistent (initials : List (List Text))
    (sources : List (List Text × List (Option Text))) (past : List TableRequest) :
    Consistent (runAll (initials.map TextTable.ofList) past).2
        (recordAll (initials.map fun initial => initial.map fun s => (s, none)) past) ∧
      Consistent (runAll (sources.map fun given => ContentTable.ofList given.1 given.2) past).2
        (recordAll (sources.map fun given => ContentTable.pair given.1 given.2) past) ∧
      List.Forall₂
        (fun t history => ∀ (i : Nat) s, t.names.get (i : Number) = .ok s →
          t.content? (i : Number) = firstContent s history)
        (runAll (sources.map fun given => ContentTable.ofList given.1 given.2) past).2
        (recordAll (sources.map fun given => ContentTable.pair given.1 given.2) past) ∧
      runAll (initials.map TextTable.ofList) past =
        ((runAll (initials.map IndexedTexts.ofList) past).1,
          (runAll (initials.map IndexedTexts.ofList) past).2.map IndexedTexts.toTable) ∧
      runAll (sources.map fun given => ContentTable.ofList given.1 given.2) past =
        ((runAll (sources.map fun given => IndexedSources.ofList given.1 given.2) past).1,
          (runAll (sources.map fun given => IndexedSources.ofList given.1 given.2) past).2.map
            IndexedSources.toTable) := by
  have hafter := kept_recorded.runAll past (recorded_start sources)
  refine ⟨consistent_of_lists (kept_lists.runAll past (lists_start initials)),
    consistent_of_lists (hafter.imp fun _ _ h => h.1), hafter.imp fun t history h i s hs => ?_, ?_, ?_⟩
  · rw [ContentTable.content?_eq_recorded h.1.nodup (TextTable.get_eq_ok_iff.mp hs)]
    exact h.2 s
  · rw [← IndexedTexts.map_toTable_ofList]
    exact represents_texts.runAll past _
  · rw [← IndexedSources.map_toTable_ofList]
    exact represents_sources.runAll past _

-- what is added to a copy later on is not added to the table that it was copied from
example :
    (runAll [ContentTable.ofList ["a", "b", "a"] [none, none, some "x"]]
      [clone 0, intern 1 "b" (some "y"), intern 0 "c" none]).2.map ContentTable.entries =
    ([[("a", some "x"), ("b", none), ("c", none)], [("a", some "x"), ("b", some "y")]] :
      List History) := by
  decide

end TableRequest

end Provenance
