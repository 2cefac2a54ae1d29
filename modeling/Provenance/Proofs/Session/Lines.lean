/-
# Maps of lines in a session

A source that is asked for its map without columns has one if and only if it has one with columns, as far
as the texts of both are not too long, and its map of lines leads from the start of each line to the start
of the line that the first origin on it is on.  Whatever has been asked before, both maps are found as they
are made without memory, if no generated text has been hashed that may inherit a further source.

The main facts:

* `mapWith_lines` : a source has a map of lines if and only if it has one of columns;
* `mapWith_of_overlong` : a map whose text is too long is refused;
* `mapped_lines` : maps of lines agree with maps of columns, without memory and in every run.
-/
import Provenance.Proofs.Composition.Lines
import Provenance.Proofs.Session.Feedback

namespace Provenance

namespace Source

variable {s : Source} {options : OutputOptions} {M : SourceMap}

/-- The text of the entries of a source's map is longer than a text can be. -/
def OverlongMap (s : Source) (options : OutputOptions) : Prop :=
  ∃ c t, s.compose options.limit = .ok c ∧ (c.outputTable options).compact.HasText t ∧
    Text.maxLength < t.length

/-- Whether a source that is composed has a map, with columns or without. -/
theorem mapWith_outcome (hs : s.Constructed)
    (hnumbers : ∀ c, s.compose options.limit = .ok c → ∀ m ∈ c.mappings, m.IntegersUpTo 0x7FFFFFFF)
    {c : Composition} (hc : s.compose options.limit = .ok c) (columns : Bool) :
    ∃ t, (c.outputTable { options with columns }).compact.HasText t ∧
      (s.mapWith { options with columns }).map Option.isSome =
        if c.mappings.locations = [] then .ok false
        else if t.length ≤ Text.maxLength then .ok true
        else .error (.map (.encode .textTooLong)) := by
  obtain ⟨t, ht, houtcome⟩ := Composition.toMap_lines (compositionAt_proper hs hc).1
    (compositionAt_within hs hc (hnumbers c hc)) options columns
  have hlimit : ({ options with columns } : OutputOptions).limit = options.limit := rfl
  refine ⟨t, ht, ?_⟩
  unfold mapWith
  rw [hlimit, hc]
  show ((c.toMap { options with columns }).mapError Fault.map).map Option.isSome = _
  rw [map_mapError, houtcome]
  split
  · rfl
  · split <;> rfl

/-- A source that is not composed has no map. -/
theorem mapWith_of_error {e : ComposeError} (he : s.compose options.limit = .error e)
    (columns : Bool) : s.mapWith { options with columns } = .error (.compose e) := by
  have hlimit : ({ options with columns } : OutputOptions).limit = options.limit := rfl
  unfold mapWith
  rw [hlimit, he]
  rfl

/-- **A source has a map of lines if and only if it has one of columns**, as far as the texts of both
are not too long. -/
theorem mapWith_lines (hs : s.Constructed)
    (hnumbers : ∀ c, s.compose options.limit = .ok c → ∀ m ∈ c.mappings, m.IntegersUpTo 0x7FFFFFFF) :
    (s.mapWith { options with columns := false } = .ok none ↔
      s.mapWith { options with columns := true } = .ok none) ∧
    ((∀ columns, ¬ s.OverlongMap { options with columns }) →
      (s.mapWith { options with columns := false }).map Option.isSome =
        (s.mapWith { options with columns := true }).map Option.isSome) := by
  cases hc : s.compose options.limit with
  | error e =>
    rw [mapWith_of_error hc, mapWith_of_error hc]
    exact ⟨Iff.rfl, fun _ => rfl⟩
  | ok c =>
    have hnone : ∀ columns, s.mapWith { options with columns } = .ok none ↔
        c.mappings.locations = [] := by
      intro columns
      obtain ⟨t, -, houtcome⟩ := mapWith_outcome hs hnumbers hc columns
      constructor
      · intro h
        by_contra hsome
        rw [h, if_neg hsome] at houtcome
        split at houtcome <;> cases houtcome
      · intro h
        rw [if_pos h] at houtcome
        obtain ⟨m, hm, hisSome⟩ := map_eq_ok_iff.mp houtcome
        rw [hm, show m = none by simpa using hisSome]
    refine ⟨(hnone false).trans (hnone true).symm, fun hfits => ?_⟩
    have hboth : ∀ columns, (s.mapWith { options with columns }).map Option.isSome =
        if c.mappings.locations = [] then .ok false else .ok true := by
      intro columns
      obtain ⟨t, ht, houtcome⟩ := mapWith_outcome hs hnumbers hc columns
      have hlength : t.length ≤ Text.maxLength := Nat.le_of_not_lt fun hlong =>
        hfits columns ⟨c, t, hc, ht, hlong⟩
      rw [houtcome, if_pos hlength]
    rw [hboth, hboth]

/-- **A map whose text is too long is refused**, with columns or without. -/
theorem mapWith_of_overlong (hs : s.Constructed)
    (hnumbers : ∀ c, s.compose options.limit = .ok c → ∀ m ∈ c.mappings, m.IntegersUpTo 0x7FFFFFFF)
    {columns : Bool} (h : s.OverlongMap { options with columns }) :
    s.mapWith { options with columns } = .ok none ∨
      s.mapWith { options with columns } = .error (.map (.encode .textTooLong)) := by
  obtain ⟨c, t, hc, ht, hlong⟩ := h
  obtain ⟨t', ht', houtcome⟩ := mapWith_outcome hs hnumbers hc columns
  rw [if_neg fun hle => Nat.not_lt.mpr ((ht.length_le_iff ht').mpr hle) hlong] at houtcome
  split at houtcome
  · left
    obtain ⟨m, hm, hisSome⟩ := map_eq_ok_iff.mp houtcome
    rw [hm, show m = none by simpa using hisSome]
  · right
    exact map_eq_error_iff.mp houtcome

/-- **What the map of lines of a source says.** -/
theorem mapsLines_of_mapWith (hs : s.Constructed)
    (hnumbers : ∀ c, s.compose options.limit = .ok c → ∀ m ∈ c.mappings, m.IntegersUpTo 0x7FFFFFFF)
    (hM : s.mapWith { options with columns := false } = .ok (some M)) :
    ∃ c table, s.compose options.limit = .ok c ∧ MappingTable.decode M.mappings = .ok table ∧
      c.MapsLines M table := by
  obtain ⟨c, hc, hcM⟩ := mapWith_eq_ok_iff.mp hM
  have hproper := (compositionAt_proper hs hc).1
  exact ⟨c, _, hc,
    Composition.decode_toMap hproper (compositionAt_within hs hc (hnumbers c hc)) hcM,
    Composition.mapsLines_of_toMap hproper (compositionAt_tidy hc) rfl hcM⟩

end Source

namespace Session

/-- **Maps of lines agree with maps of columns.**  Let the numbers in the result of a constructed source
be integers up to 2147483647.  Then the source has a map of lines if and only if it has one of columns,
as far as the texts of both are not too long, and a map whose text is too long is refused.  The map of
lines is decoded to a table with one entry for each line on which the result has an origin and
none for other lines; the entry leads from the start of the line to the start of the line that the first
of these origins is on, and has no name.  The map lists the sources that are so referred to, each once,
in the order of first reference.  In every run of well-formed requests the source is asked for these
maps and answers with them, whatever is remembered by then, as long as no two streams of bytes that have
been hashed in the run share a digest, and no generated text has been hashed that may inherit a further
source. -/
theorem mapped_lines :
    (∀ (s : Source) (options : OutputOptions), s.Constructed →
      (∀ c, s.compose options.limit = .ok c → ∀ m ∈ c.mappings, m.IntegersUpTo 0x7FFFFFFF) →
      (s.mapWith { options with columns := false } = .ok none ↔
        s.mapWith { options with columns := true } = .ok none) ∧
      ((∀ columns, ¬ s.OverlongMap { options with columns }) →
        (s.mapWith { options with columns := false }).map Option.isSome =
          (s.mapWith { options with columns := true }).map Option.isSome) ∧
      (∀ columns, s.OverlongMap { options with columns } →
        s.mapWith { options with columns } = .ok none ∨
          s.mapWith { options with columns } = .error (.map (.encode .textTooLong))) ∧
      ∀ M, s.mapWith { options with columns := false } = .ok (some M) →
        ∃ c table, s.compose options.limit = .ok c ∧ MappingTable.decode M.mappings = .ok table ∧
          c.MapsLines M table) ∧
    ∀ (past later : List Request) (plan : Plan) (options : OutputOptions),
      (∀ r ∈ past ++ .query plan (.map options) :: later, r.Formed) →
      ContentHash.CollisionFree
        (runAll {} (past ++ .query plan (.map options) :: later)).2.store.hashed →
      ContentHash.Overt (runAll {} (past ++ .query plan (.map options) :: later)).2.store.hashed →
      ∀ s store, build (runAll {} past).2.defined plan
          { (runAll {} past).2.store with notices := [] } = .ok s store →
        s.Constructed ∧
          ((runAll {} (past ++ .query plan (.map options) :: later)).1[past.length]?).map
            Outcome.result = some ((s.mapWith options).map .map) := by
  refine ⟨fun s options hs hnumbers => ?_, ?_⟩
  · obtain ⟨hnone, hboth⟩ := Source.mapWith_lines hs hnumbers
    exact ⟨hnone, hboth, fun columns => Source.mapWith_of_overlong hs hnumbers, fun M hM =>
      Source.mapsLines_of_mapWith hs hnumbers hM⟩
  intro past later plan options hformed hfree hovert s store hbuild
  obtain ⟨hs, hanswer⟩ := composing_of_runAll hformed hfree hovert hbuild
  exact ⟨hs, hanswer _ rfl⟩

/-- Two files and a text from nowhere are joined; on the second line a file ends, and another begins. -/
theorem mapped_lines_joined :
    let s : Source := .joined 0 [.file "a;b\nc" "a.js", .plain "d", .file "e\nf" "e.js"]
    let past : List Request :=
      [.define "j" (.joined [.file "a;b\nc" "a.js", .plain "d", .file "e\nf" "e.js"])]
    let M : SourceMap := ⟨["a.js", "e.js"], some [some ("a;b\nc" : Text), some ("e\nf" : Text)], [],
      "AAAA;AACA;ACAA", none, none⟩
    s.mapWith { columns := false } = .ok (some M) ∧
      (∃ N, s.mapWith { columns := true } = .ok (some N)) ∧
      (∃ c table, s.compose (defaultMaxChain : Nat) = .ok c ∧
        MappingTable.decode M.mappings = .ok table ∧ c.MapsLines M table) ∧
      ((runAll {} (past ++ [.query (.ref "j") (.map { columns := false })])).1[1]?).map Outcome.result =
        some (.ok (.map (some M))) := by
  intro s past M
  have hM : s.mapWith { columns := false } = .ok (some M) := by decide +kernel
  have hnumbers : ∀ c, s.compose (defaultMaxChain : Nat) = .ok c →
      ∀ m ∈ c.mappings, m.IntegersUpTo 0x7FFFFFFF := by
    have hall : ∀ c ∈ (s.compose (defaultMaxChain : Nat)).toOption,
        ∀ m ∈ c.mappings, m.IntegersUpTo 0x7FFFFFFF := by decide +kernel
    exact fun c hc => hall c (by rw [hc]; rfl)
  have hs : s.Constructed := by
    refine .joined ?_
    simp only [List.forall_mem_cons]
    exact ⟨.file _ _, .plain _, .file _ _, by simp⟩
  have hformed : ∀ r ∈ past ++ [.query (.ref "j") (.map { columns := false })], r.Formed := by
    simp only [past, List.cons_append, List.nil_append, List.forall_mem_cons]
    refine ⟨.joined ?_, .ref "j", by simp⟩
    simp only [List.forall_mem_cons]
    exact ⟨.file rfl rfl, .plain rfl, .file rfl rfl, by simp⟩
  have hfree : ContentHash.CollisionFree
      (runAll {} (past ++ [.query (.ref "j") (.map { columns := false })])).2.store.hashed :=
    ContentHash.collisionFree_of_forall_eq [] (by decide +kernel)
  have hovert : ContentHash.Overt
      (runAll {} (past ++ [.query (.ref "j") (.map { columns := false })])).2.store.hashed := by
    decide +kernel
  have hshort : ∀ columns, ¬ s.OverlongMap { columns } := by
    rintro columns ⟨c, t, hc, ht, hlong⟩
    have hc : s.compose (defaultMaxChain : Nat) = .ok c := hc
    have hall : ∀ columns, ∀ c ∈ (s.compose (defaultMaxChain : Nat)).toOption,
        (c.outputTable { columns }).compact.encode ≠ .error .textTooLong := by decide +kernel
    exact hall columns c (by rw [hc]; rfl) (ht.encode_eq.trans (if_neg (Nat.not_le.mpr hlong)))
  obtain ⟨halone, hrun⟩ := mapped_lines
  obtain ⟨-, hboth, -, hsays⟩ := halone s {} hs hnumbers
  refine ⟨hM, ?_, hsays M hM, ?_⟩
  · have hboth := hboth hshort
    rw [hM] at hboth
    obtain ⟨N, hN, hsome⟩ := map_eq_ok_iff.mp hboth.symm
    obtain ⟨N, rfl⟩ := Option.isSome_iff_exists.mp hsome
    exact ⟨N, hN⟩
  · have hbuild : build (runAll {} past).2.defined (.ref "j")
        { (runAll {} past).2.store with notices := [] } = .ok s _ := rfl
    obtain ⟨-, hanswer⟩ := hrun past [] (.ref "j") { columns := false } hformed hfree hovert s _
      hbuild
    rw [hM] at hanswer
    exact hanswer

end Session

end Provenance
