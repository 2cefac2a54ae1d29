/-
# Tables with an index

A table may be kept as a list of texts beside a map from the texts to their places, and the contents that
are known in a list of their own, which has gaps where none is known.  Such a table carries that the map
finds every text where it stands.  It stands for the list of its entries: adding and copying commute with
that, and all its answers are those of the entries.

The main facts:

* `toTable_intern` : adding a text to the list and to the map adds it to the entries;
* `Represents.runAll` : what commutes with additions, copies and answers does so with every run;
* `represents_texts`, `represents_sources` : tables with an index stand for those without.
-/
import Provenance.Proofs.Contents
import Provenance.Table.Family

namespace Provenance

/-! ## Texts -/

/-- Texts, with a map that finds each of them at the place where it stands first. -/
structure IndexedTexts where
  texts : List Text := []
  places : List (Text × Nat) := []
  aligned : ∀ s, places.lookup s = texts.idxOf? s := by intro s; rfl

namespace IndexedTexts

/-- The texts without the map. -/
def toTable (t : IndexedTexts) : TextTable := ⟨t.texts⟩

/-- A text that is added at the end is found there unless it was before, and every other where it was. -/
theorem aligned_append (t : IndexedTexts) (s x : Text) :
    (t.places ++ [(s, t.texts.length)]).lookup x = (t.texts ++ [s]).idxOf? x := by
  have happend : (t.texts ++ [s]).idxOf? x =
      (t.texts.idxOf? x).or (([s].idxOf? x).map (· + t.texts.length)) := List.findIdx?_append
  rw [List.lookup_append, t.aligned x, happend]
  by_cases hx : x = s
  · simp [hx, List.idxOf?_cons]
  · simp [List.lookup_cons, beq_eq_false_iff_ne.mpr hx, List.idxOf?_cons, Ne.symm hx]

/-- The index of a text, and the table with the text in it. -/
def intern (t : IndexedTexts) (s : Text) : Nat × IndexedTexts :=
  match t.places.lookup s with
  | some i => (i, t)
  | none =>
    (t.texts.length,
      ⟨t.texts ++ [s], t.places ++ [(s, t.texts.length)], t.aligned_append s⟩)

/-- The table with some texts in it. -/
def internAll (t : IndexedTexts) (ss : List Text) : IndexedTexts :=
  ss.foldl (fun t s => (t.intern s).2) t

/-- The table of some texts. -/
def ofList (initial : List Text) : IndexedTexts := internAll {} initial

/-- A text that is in the table is left there, and another is added at the end. -/
theorem intern_cases (t : IndexedTexts) (s : Text) :
    (∃ i, t.texts.idxOf? s = some i ∧ t.intern s = (i, t)) ∨
      t.texts.idxOf? s = none ∧ (t.intern s).1 = t.texts.length ∧
        (t.intern s).2.texts = t.texts ++ [s] := by
  unfold intern
  split
  · rename_i i hi
    exact Or.inl ⟨i, (t.aligned s).symm.trans hi, rfl⟩
  · rename_i hnone
    exact Or.inr ⟨(t.aligned s).symm.trans hnone, rfl, rfl⟩

/-- A table only grows, and the index of a text is one of the table with the text in it. -/
theorem bounds_intern (t : IndexedTexts) (s : Text) :
    t.texts.length ≤ (t.intern s).2.texts.length ∧
      (t.intern s).1 < (t.intern s).2.texts.length := by
  rcases t.intern_cases s with ⟨i, hi, hintern⟩ | ⟨-, hindex, htexts⟩
  · rw [hintern]
    exact ⟨Nat.le_refl _, (List.idxOf?_eq_some_iff.mp hi).1⟩
  · rw [hindex, htexts, List.length_append]
    exact ⟨Nat.le_succ _, Nat.lt_succ_self _⟩

/-- **Adding a text to the list and to the map adds it to the texts.** -/
theorem toTable_intern (t : IndexedTexts) (s : Text) :
    t.toTable.intern s = ((t.intern s).1, (t.intern s).2.toTable) := by
  rcases t.intern_cases s with ⟨i, hi, hintern⟩ | ⟨hnone, hindex, htexts⟩
  · rw [hintern, TextTable.intern, TextTable.indexOf?, toTable, hi]
  · rw [hindex, toTable, toTable, htexts, TextTable.intern, TextTable.indexOf?, hnone]
    rfl

/-- The table of some texts stands for the table of these texts. -/
theorem toTable_ofList (initial : List Text) : (ofList initial).toTable = TextTable.ofList initial := by
  have hall : ∀ (t : IndexedTexts) ss, (t.internAll ss).toTable = (t.toTable.internAll ss).2 := by
    intro t ss
    induction ss generalizing t with
    | nil => rfl
    | cons s rest ih =>
      have hintern : (t.toTable.intern s).2 = (t.intern s).2.toTable := by rw [toTable_intern]
      exact (ih (t.intern s).2).trans
        (congrArg (fun table => (TextTable.internAll table rest).2) hintern.symm)
  exact hall {} initial

theorem map_toTable_ofList (initials : List (List Text)) :
    (initials.map ofList).map toTable = initials.map TextTable.ofList := by
  rw [List.map_map]
  exact List.map_congr_left fun initial _ => toTable_ofList initial

end IndexedTexts

/-! ## Sources -/

/-- A content put at a place.  Places before it that have none are gaps. -/
def putAt (known : List (Option Text)) (i : Nat) (content : Text) : List (Option Text) :=
  if i < known.length then known.set i (some content)
  else known ++ List.replicate (i - known.length) none ++ [some content]

theorem join_getElem?_putAt (known : List (Option Text)) (i : Nat) (content : Text) (j : Nat) :
    ((putAt known i content)[j]?).join = if i = j then some content else (known[j]?).join := by
  unfold putAt
  split
  · rename_i hlt
    split
    · rename_i hij
      rw [← hij, List.getElem?_set_self hlt]
      rfl
    · rename_i hij
      rw [List.getElem?_set_ne hij]
  · rename_i hle
    have hlength : (known ++ List.replicate (i - known.length) (none : Option Text)).length = i := by
      rw [List.length_append, List.length_replicate]
      omega
    rcases Nat.lt_trichotomy j i with hlt | rfl | hgt
    · -- a gap, or a place that was there before
      rw [List.getElem?_append_left (by omega), if_neg (by omega)]
      by_cases hj : j < known.length
      · rw [List.getElem?_append_left hj]
      · rw [List.getElem?_append_right (by omega), List.getElem?_replicate,
          List.getElem?_eq_none (by omega : known.length ≤ j)]
        split <;> rfl
    · rw [List.getElem?_append_right (by omega), hlength, Nat.sub_self, if_pos rfl]
      rfl
    · rw [List.getElem?_eq_none (by rw [List.length_append, hlength, List.length_singleton]; omega),
        List.getElem?_eq_none (by omega : known.length ≤ j), if_neg (by omega)]

/-- The contents with one more recorded at a place, unless one is known there. -/
def recordAt (known : List (Option Text)) (i : Nat) (content : Option Text) : List (Option Text) :=
  match content with
  | some c => if (known[i]?).join = none then putAt known i c else known
  | none => known

/-- A content is recorded at its place only, and only if none is known there. -/
theorem join_getElem?_recordAt (known : List (Option Text)) (i : Nat) (content : Option Text) (j : Nat) :
    ((recordAt known i content)[j]?).join =
      if i = j then ((known[j]?).join).or content else (known[j]?).join := by
  unfold recordAt
  cases content with
  | none => simp
  | some c =>
    cases hi : (known[i]?).join with
    | some d =>
      by_cases hij : i = j
      · simp [← hij, hi]
      · simp [hij]
    | none =>
      by_cases hij : i = j
      · simp [← hij, join_getElem?_putAt, hi]
      · simp [hij, join_getElem?_putAt]

theorem length_recordAt {known : List (Option Text)} {i n : Nat} (content : Option Text)
    (hknown : known.length ≤ n) (hi : i < n) : (recordAt known i content).length ≤ n := by
  unfold recordAt putAt
  split
  · split
    · split
      · rwa [List.length_set]
      · simp only [List.length_append, List.length_replicate, List.length_singleton]
        omega
    · exact hknown
  · exact hknown

/-- Sources with a map to their places, and the contents that are known at places. -/
structure IndexedSources extends IndexedTexts where
  known : List (Option Text) := []
  bounded : known.length ≤ texts.length := by exact Nat.le_refl 0

namespace IndexedSources

/-- The entries without the map. -/
def toTable (t : IndexedSources) : ContentTable :=
  ⟨t.texts.mapIdx fun i s => (s, (t.known[i]?).join)⟩

theorem getElem?_toTable (t : IndexedSources) (i : Nat) :
    t.toTable.entries[i]? = (t.texts[i]?).map fun s => (s, (t.known[i]?).join) :=
  List.getElem?_mapIdx

theorem names_toTable (t : IndexedSources) : t.toTable.names = t.toIndexedTexts.toTable := by
  refine congrArg TextTable.mk (List.ext_getElem? fun i => ?_)
  rw [List.getElem?_map, getElem?_toTable]
  cases t.texts[i]? <;> rfl

/-- The index of a source, and the table with the source in it.  The content is recorded if none is
known yet. -/
def intern (t : IndexedSources) (s : Text) (content : Option Text) : Nat × IndexedSources :=
  let i := (t.toIndexedTexts.intern s).1
  let names := (t.toIndexedTexts.intern s).2
  have hbounds := t.toIndexedTexts.bounds_intern s
  (i, ⟨names, recordAt t.known i content,
    length_recordAt content (Nat.le_trans t.bounded hbounds.1) hbounds.2⟩)

/-- The table with some sources in it, with their contents. -/
def internAll (t : IndexedSources) (entries : List (Text × Option Text)) : IndexedSources :=
  entries.foldl (fun t e => (t.intern e.1 e.2).2) t

/-- The table of some sources with their contents. -/
def ofList (initial : List Text) (contents : List (Option Text)) : IndexedSources :=
  internAll {} (ContentTable.pair initial contents)

theorem getElem?_toTable_intern (t : IndexedSources) (s : Text) (content : Option Text) (j : Nat) :
    (t.intern s content).2.toTable.entries[j]? =
      ((t.toIndexedTexts.intern s).2.texts[j]?).map fun x =>
        (x, if (t.toIndexedTexts.intern s).1 = j then ((t.known[j]?).join).or content
          else (t.known[j]?).join) := by
  rw [getElem?_toTable, ← join_getElem?_recordAt]
  rfl

/-- **Adding a source to the list, to the map and to the contents adds it to the entries.** -/
theorem toTable_intern (t : IndexedSources) (s : Text) (content : Option Text) :
    t.toTable.intern s content = ((t.intern s content).1, (t.intern s content).2.toTable) := by
  have hindex : t.toTable.names.indexOf? s = t.texts.idxOf? s := by
    rw [names_toTable]
    rfl
  have hlength : t.toTable.entries.length = t.texts.length := List.length_mapIdx
  unfold ContentTable.intern
  rw [hindex]
  rcases t.toIndexedTexts.intern_cases s with ⟨i, hi, hintern⟩ | ⟨hnone, hplace, htexts⟩
  · have hplace : (t.intern s content).1 = i := congrArg Prod.fst hintern
    rw [hi]
    refine Prod.ext hplace.symm (congrArg ContentTable.mk (List.ext_getElem? fun j => ?_))
    refine Eq.trans ?_ (t.getElem?_toTable_intern s content j).symm
    rw [List.getElem?_modify, getElem?_toTable, hintern]
    cases t.texts[j]? with
    | none => rfl
    | some x => by_cases hij : i = j <;> simp [hij]
  · have hentries : t.toTable.entries ++ [(s, content)] = (t.intern s content).2.toTable.entries := by
      apply List.ext_getElem?
      intro j
      rw [getElem?_toTable_intern, hplace, htexts]
      rcases Nat.lt_trichotomy j t.texts.length with hlt | rfl | hgt
      · rw [List.getElem?_append_left (by omega), List.getElem?_append_left hlt, getElem?_toTable,
          if_neg (by omega)]
      · rw [← hlength, List.getElem?_concat_length, hlength, List.getElem?_concat_length,
          List.getElem?_eq_none t.bounded]
        simp
      · have hentries : (t.toTable.entries ++ [(s, content)]).length ≤ j := by
          rw [List.length_append, List.length_singleton]
          omega
        have htexts : (t.texts ++ [s]).length ≤ j := by
          rw [List.length_append, List.length_singleton]
          omega
        rw [List.getElem?_eq_none hentries, List.getElem?_eq_none htexts]
        rfl
    have hplace : (t.intern s content).1 = t.texts.length := hplace
    rw [hnone, hplace]
    simp only [hentries, hlength]

/-- Sources paired with contents are the entries that these contents make. -/
theorem pair_eq_mapIdx (ss : List Text) (contents : List (Option Text)) :
    ContentTable.pair ss contents = ss.mapIdx fun i s => (s, (contents[i]?).join) := by
  induction ss generalizing contents with
  | nil => rfl
  | cons s rest ih =>
    rw [List.mapIdx_cons]
    cases contents with
    | nil => rw [ContentTable.pair, ih]; rfl
    | cons content contents => rw [ContentTable.pair, ih]; rfl

/-- A content is known at a place if it is that of the entry there. -/
theorem join_getElem?_contents (t : IndexedSources) (i : Nat) :
    (t.toTable.contents[i]?).join = (t.known[i]?).join := by
  rw [ContentTable.contents, List.getElem?_map, getElem?_toTable]
  cases hs : t.texts[i]? with
  | none =>
    have hle := Nat.le_trans t.bounded (List.getElem?_eq_none_iff.mp hs)
    rw [List.getElem?_eq_none hle]
    rfl
  | some s => rfl

theorem any_isSome_iff {known : List (Option Text)} :
    known.any Option.isSome = true ↔ ∃ (i : Nat) (c : Text), (known[i]?).join = some c := by
  rw [List.any_eq_true]
  constructor
  · rintro ⟨content, hmem, hsome⟩
    obtain ⟨i, hi⟩ := List.getElem?_of_mem hmem
    obtain ⟨c, rfl⟩ := Option.isSome_iff_exists.mp hsome
    exact ⟨i, c, by rw [hi]; rfl⟩
  · rintro ⟨i, c, hi⟩
    have hknown : known[i]? = some (some c) := Option.join_eq_some_iff.mp hi
    exact ⟨some c, List.mem_of_getElem? hknown, rfl⟩

/-- The table of some sources stands for the table of these sources. -/
theorem toTable_ofList (initial : List Text) (contents : List (Option Text)) :
    (ofList initial contents).toTable = ContentTable.ofList initial contents := by
  have hall : ∀ (t : IndexedSources) entries,
      (t.internAll entries).toTable = (t.toTable.internAll entries).2 := by
    intro t entries
    induction entries generalizing t with
    | nil => rfl
    | cons e rest ih =>
      have hintern : (t.toTable.intern e.1 e.2).2 = (t.intern e.1 e.2).2.toTable := by
        rw [toTable_intern]
      exact (ih (t.intern e.1 e.2).2).trans
        (congrArg (fun table => (ContentTable.internAll table rest).2) hintern.symm)
  exact hall {} (ContentTable.pair initial contents)

theorem map_toTable_ofList (sources : List (List Text × List (Option Text))) :
    (sources.map fun given => ofList given.1 given.2).map toTable =
      sources.map fun given => ContentTable.ofList given.1 given.2 := by
  rw [List.map_map]
  exact List.map_congr_left fun given _ => toTable_ofList given.1 given.2

end IndexedSources

/-! ## Runs -/

instance : Interning IndexedTexts where
  intern t s _ := t.intern s
  names := IndexedTexts.toTable
  indexOf? t s := t.places.lookup s
  content? _ _ := none
  anyContent _ := false
  copy t := IndexedTexts.ofList t.texts

instance : Interning IndexedSources where
  intern t s content := t.intern s content
  names t := t.toIndexedTexts.toTable
  indexOf? t s := t.places.lookup s
  content? t index := index.toNat?.bind fun i => (t.known[i]?).join
  anyContent t := t.known.any Option.isSome
  copy t := IndexedSources.ofList t.texts t.known

section Represents

variable {T U : Type} [Interning T] [Interning U]

/-- Tables of one kind stand for tables of another: adding, copying and answering commute with that. -/
structure Represents (f : T → U) : Prop where
  intern : ∀ t s content,
    Interning.intern (f t) s content =
      ((Interning.intern t s content).1, f (Interning.intern t s content).2)
  copy : ∀ t, f (Interning.copy t) = Interning.copy (f t)
  answer : ∀ (q : TableQuestion) t, q.answer (f t) = q.answer t

variable {f : T → U}

/-- A request is answered as it is for the tables that are stood for. -/
theorem Represents.run (h : Represents f) (r : TableRequest) (tables : List T) :
    r.run (tables.map f) = ((r.run tables).1, (r.run tables).2.map f) := by
  cases r with
  | intern n s content =>
    simp only [TableRequest.run, List.getElem?_map]
    cases tables[n]? with
    | none => rfl
    | some t =>
      simp only [Option.map_some, h.intern, List.map_set]
  | clone n =>
    simp only [TableRequest.run, List.getElem?_map]
    cases tables[n]? with
    | none => rfl
    | some t => simp [h.copy]
  | ask n q =>
    simp only [TableRequest.run, List.getElem?_map]
    cases tables[n]? with
    | none => rfl
    | some t => simp [h.answer]

/-- **A run is answered as it is for the tables that are stood for.** -/
theorem Represents.runAll (h : Represents f) (rs : List TableRequest) (tables : List T) :
    TableRequest.runAll (tables.map f) rs =
      ((TableRequest.runAll tables rs).1, (TableRequest.runAll tables rs).2.map f) := by
  induction rs generalizing tables with
  | nil => rfl
  | cons r rest ih =>
    simp only [TableRequest.runAll, h.run, ih]

end Represents

/-- **Texts with a map stand for texts.** -/
theorem represents_texts : Represents IndexedTexts.toTable where
  intern t s _ := t.toTable_intern s
  copy t := IndexedTexts.toTable_ofList t.texts
  answer q t := by
    cases q with
    | indexOf s => exact congrArg TableAnswer.index (t.aligned s).symm
    | _ => rfl

/-- **Sources with a map and contents at places stand for entries.** -/
theorem represents_sources : Represents IndexedSources.toTable where
  intern t s content := t.toTable_intern s content
  copy t := by
    have hentries : ContentTable.pair t.texts t.known = t.toTable.entries :=
      IndexedSources.pair_eq_mapIdx t.texts t.known
    have hpair : ContentTable.pair t.toTable.names.texts t.toTable.contents = t.toTable.entries :=
      ContentTable.pair_entries t.toTable.entries
    refine (IndexedSources.toTable_ofList t.texts t.known).trans ?_
    exact congrArg (fun entries => (ContentTable.internAll {} entries).2) (hentries.trans hpair.symm)
  answer q t := by
    have hnames : Interning.names t.toTable = Interning.names t := t.names_toTable
    cases q with
    | indexOf s =>
      refine congrArg TableAnswer.index ?_
      show t.toTable.names.indexOf? s = t.places.lookup s
      rw [t.names_toTable, t.aligned s]
      rfl
    | get index => simp only [TableQuestion.answer, hnames]
    | has index => exact congrArg (fun names => TableAnswer.has (names.has index)) hnames
    | size => exact congrArg (fun names => TableAnswer.size names.size) hnames
    | values => exact congrArg (fun names => TableAnswer.values names.texts) hnames
    | content index =>
      refine congrArg (fun found => TableAnswer.content (index.toNat?.bind found)) ?_
      exact funext t.join_getElem?_contents
    | anyContent =>
      refine congrArg TableAnswer.anyContent (Bool.eq_iff_iff.mpr ?_)
      show t.toTable.contents.any Option.isSome = true ↔ t.known.any Option.isSome = true
      simp only [IndexedSources.any_isSome_iff, t.join_getElem?_contents]

end Provenance
