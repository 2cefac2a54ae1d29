/-
# What the source map of a composed result says

The source map of a composed result lists the sources and names that its entries refer to, each once,
in the order of first reference, and gives every position the origin that the result gives it: its
entries are renumbered, written, read back, searched and described in the words of the lists.

The main facts:

* `encode_decode` : a bounded table in order has a text, from which it is read back;
* `toMap_eq_some_iff` : when a result has a source map, and which;
* `positionIn_compact` : the origins of positions, by the source map;
* `toMap_describes` : a result has a source map if and only if some entry has an origin, and it says
  what the result says.
-/
import Provenance.Proofs.Composition.Origin
import Provenance.Proofs.Mapping.Renumber

namespace Provenance

/-! ## Reading back -/

/-- A bounded table in order has a text, from which it is read back. -/
theorem MappingTable.encode_decode {table : MappingTable} (horder : table.inOrder = true)
    (hwithin : ∀ m ∈ table, m.Within Vlq.maxMagnitude) :
    ∃ t, table.HasText t ∧ decode t = .ok table := by
  have hnatural : ∀ m ∈ table, m.Natural := fun m hm => (hwithin m hm).natural
  have hsorted := (inOrder_iff_sorted (placed_of_natural hnatural)).mp horder
  obtain ⟨lines, ht, hsegments⟩ := exists_hasText hnatural (hsorted.ascending hnatural)
  have hle := fun m hm => (hwithin m hm).le
  have hdecode := decode_text_of_stepsFit hsegments hnatural (settled_of_le hnatural hle)
    (hsorted.ascending hnatural) (stepsFit_of_le hnatural hle)
  rw [sort_of_inOrder horder] at hdecode
  exact ⟨_, ht, hdecode⟩

/-- A bounded table in order is what its text is decoded to. -/
theorem MappingTable.decode_of_encode {table : MappingTable} {t : Text}
    (horder : table.inOrder = true) (hwithin : ∀ m ∈ table, m.Within Vlq.maxMagnitude)
    (h : table.encode = .ok t) : decode t = .ok table := by
  obtain ⟨t', ht', hdecode⟩ := encode_decode horder hwithin
  rwa [ht'.eq_of_encode h] at hdecode

namespace Composition

/-! ## Looking up texts -/

theorem lookupAll_cons (t : TextTable) (i : Number) (rest : List Number) :
    lookupAll t (i :: rest) =
      match t.get? i with
      | some s => (lookupAll t rest).map (s :: ·)
      | none => .error (.missing ⟨i, t.size⟩) := by
  rw [lookupAll, List.mapM_cons, TextTable.get]
  cases t.get? i with
  | none => rfl
  | some s =>
    show (lookupAll t rest >>= fun others => .ok (s :: others)) = _
    cases lookupAll t rest <;> rfl

/-- The texts at some indices are found if each of them is. -/
theorem lookupAll_eq_ok_iff {t : TextTable} {indices : List Number} {texts : List Text} :
    lookupAll t indices = .ok texts ↔ texts.map some = indices.map t.get? := by
  induction indices generalizing texts with
  | nil =>
    constructor
    · intro h
      obtain rfl := Except.ok.inj h
      rfl
    · intro h
      obtain rfl := List.map_eq_nil_iff.mp h
      rfl
  | cons i rest ih =>
    rw [lookupAll_cons, List.map_cons]
    cases hi : t.get? i with
    | none =>
      refine iff_of_false (by simp) fun h => ?_
      have hmem : none ∈ texts.map some := h ▸ List.mem_cons_self
      obtain ⟨s, -, hs⟩ := List.mem_map.mp hmem
      cases hs
    | some s =>
      dsimp only
      rw [map_eq_ok_iff]
      constructor
      · rintro ⟨others, hothers, rfl⟩
        rw [List.map_cons, ih.mp hothers]
      · intro h
        cases texts with
        | nil => cases h
        | cons s' others =>
          obtain ⟨hs, hothers⟩ := List.cons.inj h
          exact ⟨others, ih.mpr hothers, by rw [Option.some.inj hs]⟩

/-- Texts are found at indices that have one each. -/
theorem exists_lookupAll {t : TextTable} {indices : List Number}
    (h : ∀ i ∈ indices, (t.get? i).isSome) : ∃ texts, lookupAll t indices = .ok texts := by
  refine ⟨indices.filterMap t.get?, lookupAll_eq_ok_iff.mpr ?_⟩
  induction indices with
  | nil => rfl
  | cons i rest ih =>
    obtain ⟨hi, hrest⟩ := List.forall_mem_cons.mp h
    obtain ⟨s, hs⟩ := Option.isSome_iff_exists.mp hi
    rw [List.filterMap_cons_some hs, List.map_cons, List.map_cons, ih hrest, hs]

/-- Under a place in the list of texts stands the text of the index at that place. -/
theorem getElem?_of_map_some_eq {t : TextTable} {indices : List Number} {texts : List Text}
    (h : texts.map some = indices.map t.get?) (i : Nat) : texts[i]? = indices[i]?.bind t.get? := by
  have hi : texts[i]?.map some = indices[i]?.map t.get? := by
    rw [← List.getElem?_map, ← List.getElem?_map, h]
  cases htext : texts[i]? with
  | none =>
    rw [htext] at hi
    rw [Option.map_eq_none_iff.mp hi.symm, Option.bind_none]
  | some s =>
    rw [htext] at hi
    obtain ⟨index, hindex, hs⟩ := Option.map_eq_some_iff.mp hi.symm
    rw [hindex, Option.bind_some, hs]

/-- Under the new number of an index in use stands its text. -/
theorem getElem?_placeOf_eq {t : TextTable} {used : List Number} {texts : List Text}
    (h : texts.map some = used.map t.get?) {index : Number} (hindex : index ∈ used) :
    ((MappingTable.placeOf used index).toNat?.bind fun i => texts[i]?) = t.get? index := by
  simp only [getElem?_of_map_some_eq h]
  rw [← Option.bind_assoc, MappingTable.getElem?_placeOf hindex, Option.bind_some]

/-! ## When there is a source map -/

variable {c : Composition} {options : OutputOptions} {M : SourceMap}

theorem encodeTable_eq_ok_iff {table : MappingTable} {t : Text} :
    encodeTable table = .ok t ↔ table.encode = .ok t := by
  rw [encodeTable]
  cases table.encode <;> simp

/-- **When a result has a source map, and which.** -/
theorem toMap_eq_some_iff :
    c.toMap options = .ok (some M) ↔
      (c.outputTable options).locations ≠ [] ∧
      M.sources.map some = (c.outputTable options).usedSources.map c.sources.names.get? ∧
      M.contents = c.outputContents (c.outputTable options).usedSources ∧
      M.names.map some = (c.outputTable options).usedNames.map c.names.get? ∧
      (c.outputTable options).compact.encode = .ok M.mappings ∧
      M.file = options.file ∧ M.sourceRoot = options.sourceRoot := by
  unfold toMap
  dsimp only
  by_cases hempty : (c.outputTable options).locations = []
  · rw [if_pos hempty]
    simp [hempty]
  · rw [if_neg hempty]
    simp only [bind_eq_ok_iff, Except.ok.injEq, Option.some.injEq, lookupAll_eq_ok_iff,
      encodeTable_eq_ok_iff]
    constructor
    · rintro ⟨sources, hsources, names, hnames, mappings, hmappings, rfl⟩
      exact ⟨hempty, hsources, rfl, hnames, hmappings, rfl, rfl⟩
    · rintro ⟨-, hsources, hcontents, hnames, hmappings, hfile, hroot⟩
      refine ⟨_, hsources, _, hnames, _, hmappings, ?_⟩
      rw [← hcontents, ← hfile, ← hroot]

/-- The contents that go into a source map are those of the sources in use, if any is known. -/
theorem outputContents_eq_none_iff {indices : List Number} :
    c.outputContents indices = none ↔ ∀ i ∈ indices, c.sources.content? i = none := by
  rw [outputContents]
  by_cases hany : (indices.map c.sources.content?).any Option.isSome = true
  · rw [if_pos hany]
    refine iff_of_false (by simp) fun h => ?_
    obtain ⟨content, hmem, hcontent⟩ := List.any_eq_true.mp hany
    obtain ⟨i, hi, rfl⟩ := List.mem_map.mp hmem
    rw [h i hi] at hcontent
    cases hcontent
  · rw [if_neg hany]
    refine iff_of_true rfl fun i hi => Option.not_isSome_iff_eq_none.mp fun hsome => ?_
    exact hany (List.any_eq_true.mpr ⟨_, List.mem_map_of_mem hi, hsome⟩)

theorem eq_of_outputContents {indices : List Number} {contents : List (Option Text)}
    (h : c.outputContents indices = some contents) : contents = indices.map c.sources.content? := by
  rw [outputContents] at h
  split at h
  · exact (Option.some.inj h).symm
  · cases h

/-! ## Origins of positions -/

/-- **The origins of positions, by the source map.**  Its compact table and its lists give every
position the origin that a table gives it in the words of the result. -/
theorem positionIn_compact {table : MappingTable} (hroot : M.sourceRoot = none)
    (hsources : M.sources.map some = table.usedSources.map c.sources.names.get?)
    (hnames : M.names.map some = table.usedNames.map c.names.get?) (line column : Number) :
    M.positionIn table.compact line column = (table.trace? line column).map c.describe := by
  have hqualified : M.qualifiedSources = M.sources := by rw [SourceMap.qualifiedSources, hroot]
  rw [SourceMap.positionIn, MappingTable.compact_eq_map, MappingTable.trace?_map_renumber, hqualified]
  cases htrace : table.trace? line column with
  | none => rfl
  | some o =>
    obtain ⟨m, hm, own, hown, distance, rfl⟩ := MappingTable.exists_of_trace? htrace
    have hmem : own ∈ table.locations := MappingTable.mem_locations.mpr ⟨m, hm, hown⟩
    have hsource : ((MappingTable.placeOf table.usedSources own.source).toNat?.bind fun i =>
        M.sources[i]?) = c.sources.names.get? own.source :=
      getElem?_placeOf_eq hsources (MappingTable.source_mem_usedSources hmem)
    have hname : ((own.advance distance).name.map (MappingTable.placeOf table.usedNames)).bind
        (fun n => n.toNat?.bind fun i => M.names[i]?) =
          (own.advance distance).name.bind c.names.get? := by
      cases hn : (own.advance distance).name with
      | none => rfl
      | some n =>
        have hn : own.name = some n := by
          simp only [Location.advance] at hn
          split at hn
          · exact hn
          · cases hn
        exact getElem?_placeOf_eq hnames (MappingTable.name_mem_usedNames hmem hn)
    rw [Option.map_some, Option.map_some, describe, Location.describeIn, ← hname,
      show (own.advance distance).source = own.source from rfl, ← hsource]
    rfl

/-! ## What a source map says -/

/-- A source map with a decoded table says what a result says: it lists the sources and names that
entries of the result refer to, each once, in the order of first reference, with the contents that
the result has for these sources if it has any, and gives every position the same origin. -/
structure DescribedBy (c : Composition) (M : SourceMap) (table : MappingTable) : Prop where
  sources : ∃ indices, FirstReferences (c.mappings.locations.map Location.source) indices ∧
    M.sources.map some = indices.map c.sources.names.get? ∧
    (M.contents = none ↔ ∀ i ∈ indices, c.sources.content? i = none) ∧
    ∀ contents ∈ M.contents, contents = indices.map c.sources.content?
  names : ∃ indices, FirstReferences (c.mappings.locations.filterMap Location.name) indices ∧
    M.names.map some = indices.map c.names.get?
  positions : ∀ line column, M.positionIn table line column = c.originAt line column

/-- The source map of a result, with each entry kept, says what the result says. -/
theorem describedBy_of_toMap (hcolumns : options.columns = true) (hroot : options.sourceRoot = none)
    (h : c.toMap options = .ok (some M)) : c.DescribedBy M c.mappings.compact := by
  obtain ⟨-, hsources, hcontents, hnames, -, -, hroot'⟩ := toMap_eq_some_iff.mp h
  have htable : c.outputTable options = c.mappings := by rw [outputTable, if_pos hcolumns]
  rw [htable] at hsources hcontents hnames
  refine ⟨⟨_, MappingTable.firstReferences_usedSources _, hsources, ?_, ?_⟩,
    ⟨_, MappingTable.firstReferences_usedNames _, hnames⟩, fun line column => ?_⟩
  · rw [hcontents, outputContents_eq_none_iff]
  · intro contents hmem
    exact eq_of_outputContents (hcontents.symm.trans hmem)
  · exact positionIn_compact (hroot'.trans hroot) hsources hnames line column

/-- Texts are found at all indices in use. -/
theorem exists_lookupAll_of_known {table : MappingTable}
    (hknown : ∀ m ∈ table, ∀ o ∈ m.origin, o.KnownIn c.sources.names c.names) :
    (∃ sources, lookupAll c.sources.names table.usedSources = .ok sources) ∧
      ∃ names, lookupAll c.names table.usedNames = .ok names := by
  constructor
  · refine exists_lookupAll fun i hi => ?_
    obtain ⟨o, ho, rfl⟩ := List.mem_map.mp (List.mem_eraseDups.mp hi)
    obtain ⟨m, hm, hmo⟩ := MappingTable.mem_locations.mp ho
    exact (hknown m hm o hmo).source
  · refine exists_lookupAll fun i hi => ?_
    obtain ⟨o, ho, hn⟩ := List.mem_filterMap.mp (List.mem_eraseDups.mp hi)
    obtain ⟨m, hm, hmo⟩ := MappingTable.mem_locations.mp ho
    exact (hknown m hm o hmo).name i hn

/-- A result with an origin and with known indices has a source map if its table has a text. -/
theorem toMap_of_known (c : Composition) (options : OutputOptions)
    (hlocations : (c.outputTable options).locations ≠ [])
    (hknown : ∀ m ∈ c.outputTable options, ∀ o ∈ m.origin, o.KnownIn c.sources.names c.names) :
    (∀ t, (c.outputTable options).compact.encode = .ok t →
      ∃ M, c.toMap options = .ok (some M) ∧ M.mappings = t) ∧
    ∀ e, (c.outputTable options).compact.encode = .error e → c.toMap options = .error (.encode e) := by
  obtain ⟨⟨sources, hsources⟩, names, hnames⟩ := exists_lookupAll_of_known hknown
  constructor
  · intro t ht
    let M : SourceMap :=
      ⟨sources, c.outputContents (c.outputTable options).usedSources, names, t, options.file,
        options.sourceRoot⟩
    exact ⟨M, toMap_eq_some_iff.mpr ⟨hlocations, lookupAll_eq_ok_iff.mp hsources, rfl,
      lookupAll_eq_ok_iff.mp hnames, ht, rfl, rfl⟩, rfl⟩
  · intro e he
    rw [toMap, if_neg hlocations, hsources, hnames, encodeTable, he]
    rfl

instance (sources names : TextTable) (o : Location) : Decidable (o.KnownIn sources names) :=
  decidable_of_iff ((sources.get? o.source).isSome ∧ ∀ n ∈ o.name, (names.get? n).isSome)
    ⟨fun ⟨hsource, hname⟩ => ⟨hsource, hname⟩, fun h => ⟨h.source, h.name⟩⟩

/-- There is no source map if and only if no entry has an origin. -/
theorem toMap_eq_none_iff :
    c.toMap options = .ok none ↔ ∀ m ∈ c.outputTable options, m.origin = none := by
  rw [← List.filterMap_eq_nil_iff, ← MappingTable.locations]
  refine ⟨fun h => ?_, toMap_eq_none⟩
  by_contra hlocations
  rw [toMap, if_neg hlocations] at h
  obtain ⟨sources, -, h⟩ := bind_eq_ok_iff.mp h
  obtain ⟨names, -, h⟩ := bind_eq_ok_iff.mp h
  obtain ⟨mappings, -, h⟩ := bind_eq_ok_iff.mp h
  cases h

/-- A result in order, with an origin, known indices and bounded numbers in its compact table, has a
source map that says what the result says, unless the text of the compact table is too long. -/
theorem toMap_of_compact_within (hcolumns : options.columns = true)
    (hroot : options.sourceRoot = none) (horder : c.mappings.inOrder = true)
    (hknown : ∀ m ∈ c.mappings, ∀ o ∈ m.origin, o.KnownIn c.sources.names c.names)
    (hwithin : ∀ m ∈ c.mappings.compact, m.Within Vlq.maxMagnitude)
    (hsome : ∃ m ∈ c.mappings, m.origin.isSome) :
    ∃ t, c.mappings.compact.HasText t ∧
      (t.length ≤ Text.maxLength → ∃ M table, c.toMap options = .ok (some M) ∧
        MappingTable.decode M.mappings = .ok table ∧ c.DescribedBy M table) ∧
      (Text.maxLength < t.length → c.toMap options = .error (.encode .textTooLong)) := by
  have htable : c.outputTable options = c.mappings := by rw [outputTable, if_pos hcolumns]
  have hlocations : c.mappings.locations ≠ [] := by
    obtain ⟨m, hm, horigin⟩ := hsome
    intro hnone
    rw [List.filterMap_eq_nil_iff.mp hnone m hm] at horigin
    cases horigin
  -- the entries that are written are the entries of the result, renumbered
  obtain ⟨t, ht, hdecode⟩ := MappingTable.encode_decode
    (by rw [MappingTable.inOrder_compact, horder]) hwithin
  have htoMap := toMap_of_known c options (by rwa [htable]) (by rwa [htable])
  rw [htable, ht.encode_eq] at htoMap
  refine ⟨t, ht, fun hfits => ?_, fun hlong => htoMap.2 _ (if_neg (Nat.not_le.mpr hlong))⟩
  obtain ⟨M, hM, rfl⟩ := htoMap.1 t (if_pos hfits)
  exact ⟨M, _, hM, hdecode, describedBy_of_toMap hcolumns hroot hM⟩

/-- **What the source map of a result says.**  Of a result in order, with known indices and bounded
numbers, there is no source map if and only if no entry has an origin; otherwise there is one that
says what the result says, unless the text of its entries is too long. -/
theorem toMap_describes (c : Composition) (options : OutputOptions)
    (hcolumns : options.columns = true) (hroot : options.sourceRoot = none)
    (horder : c.mappings.inOrder = true)
    (hknown : ∀ m ∈ c.mappings, ∀ o ∈ m.origin, o.KnownIn c.sources.names c.names)
    (hwithin : ∀ m ∈ c.mappings, m.Within 0x7FFFFFFF) :
    (c.toMap options = .ok none ↔ ∀ m ∈ c.mappings, m.origin = none) ∧
    ((∃ m ∈ c.mappings, m.origin.isSome) →
      ∃ t, c.mappings.compact.HasText t ∧
        (t.length ≤ Text.maxLength → ∃ M table, c.toMap options = .ok (some M) ∧
          MappingTable.decode M.mappings = .ok table ∧ c.DescribedBy M table) ∧
        (Text.maxLength < t.length → c.toMap options = .error (.encode .textTooLong))) := by
  have hnone : c.toMap options = .ok none ↔ ∀ m ∈ c.mappings, m.origin = none := by
    rw [toMap_eq_none_iff, outputTable, if_pos hcolumns]
  have hcompact : ∀ m ∈ c.mappings.compact, m.Within 0x7FFFFFFF :=
    MappingTable.compact_within hwithin
  exact ⟨hnone, toMap_of_compact_within hcolumns hroot horder hknown hcompact⟩

/-- The second source that a result lists is referred to by no entry, and the third one first. -/
theorem toMap_describes_three_sources :
    let c : Composition :=
      { text := "ab\ncd"
        mappings := [⟨0, 0, some ⟨2, 4, 1, some 0⟩⟩, ⟨0, 1, none⟩, ⟨1, 0, some ⟨0, 0, 7, none⟩⟩]
        sources := .ofList ["a.js", "b.js", "c.js"] [some ("text" : Text)]
        names := .ofList ["n"]
        chainLength := 0 }
    ∃ M table, c.toMap {} = .ok (some M) ∧ MappingTable.decode M.mappings = .ok table ∧
      c.DescribedBy M table ∧ M.sources = ["c.js", "a.js"] ∧
        M.contents = some [none, some ("text" : Text)] := by
  intro c
  have hknown : ∀ m ∈ c.mappings, ∀ o ∈ m.origin, o.KnownIn c.sources.names c.names := by
    decide
  obtain ⟨t, ht, hfits, -⟩ := (toMap_describes c {} rfl rfl (by decide) hknown (by decide)).2
    ⟨_, List.mem_cons_self, rfl⟩
  have hwritten : c.mappings.compact.encode = .ok "AAICA,C;ACJM" := by decide +kernel
  obtain rfl := ht.eq_of_encode hwritten
  obtain ⟨M, table, hM, htable, hdescribed⟩ := hfits (by decide)
  obtain ⟨-, hsources, hcontents, -⟩ := toMap_eq_some_iff.mp hM
  have hnames : M.sources.map some = ([("c.js" : Text), "a.js"]).map some :=
    hsources.trans (by decide)
  exact ⟨M, table, hM, htable, hdescribed, List.map_injective_iff.mpr (Option.some_injective _) hnames,
    hcontents.trans (by decide)⟩

/-- A single entry behind more empty lines than a text can hold. -/
theorem toMap_textTooLong :
    let c : Composition :=
      { text := []
        mappings := [⟨0x40000000, 0, some ⟨0, 0, 0, none⟩⟩]
        sources := .ofList ["a.js"]
        names := {}
        chainLength := 0 }
    c.mappings.inOrder = true ∧
      (∀ m ∈ c.mappings, ∀ o ∈ m.origin, o.KnownIn c.sources.names c.names) ∧
      (∀ m ∈ c.mappings, m.Within 0x7FFFFFFF) ∧ (∃ m ∈ c.mappings, m.origin.isSome) ∧
      c.toMap {} = .error (.encode .textTooLong) := by
  intro c
  have hknown : ∀ m ∈ c.mappings, ∀ o ∈ m.origin, o.KnownIn c.sources.names c.names := by
    decide
  have herror : c.mappings.compact.encode = .error .textTooLong := by decide +kernel
  exact ⟨by decide, hknown, by decide, by decide,
    (toMap_of_known c {} (by decide) hknown).2 _ herror⟩

end Composition

end Provenance
