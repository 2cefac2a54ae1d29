/-
# Origins in composed sources

Where a position of a composed source comes from, in terms of the results that its parts are composed
to: the parts of a joined source, the base of an edited one, and the further sources of a map.

The main facts:

* `originAtOffset_joined` : a position inside a part of a joined source;
* `originAtOffset_edited` : a position of an edited source, outside of the replaced ranges or in new
  content;
* `originAt_generated` : a position of a generated text.
-/
import Provenance.Proofs.Tree.Constructed

namespace Provenance

/-- The last entry of a table on a line that does not stand behind a column. -/
def MappingTable.lastUpTo? (table : MappingTable) (line column : Nat) : Option Mapping :=
  (table.filter fun m => m.line = (line : Number) ∧ m.column ≤ (column : Number)).getLast?

/-- In a table whose entries stand at places, it is the last entry whose place covers the position. -/
theorem MappingTable.lastUpTo?_eq {table : MappingTable} (h : table.Placed) (line column : Nat) :
    table.lastUpTo? line column =
      (table.filter fun m => m.place.covers ⟨line, column⟩).getLast? := by
  unfold lastUpTo?
  congr 1
  apply List.filter_congr
  intro m hm
  rw [Bool.eq_iff_iff, decide_eq_true_iff, Text.Position.covers_iff, (h m hm).line, (h m hm).column,
    Number.natCast_inj, Number.natCast_le]

namespace Source

variable {limit : Number} {depth : Nat} {id : NodeId}

/-! ## Joined sources -/

/-- **A position inside a part of a joined source comes from where the part says.**  The exceptions are
exactly the positions that the parts before go on over: these come from where those parts go on to
behind their end, although their own part maps them to nothing.  Below 2^53, this is where the end of
those parts comes from, moved along its line. -/
theorem originAtOffset_joined {children : List Source} {before after : List Composition}
    {r : Composition} (hs : (joined id children).Constructed)
    (hparts : compositionsAt limit depth children = .ok (before ++ r :: after)) {p : Nat}
    (hp : p < r.text.length) :
    ∃ c, compositionAt limit depth (joined id children) = .ok c ∧
      c.text = (before ++ r :: after).flatMap Composition.text ∧
      (c.originAtOffset ((before.flatMap Composition.text).length + p) = r.originAtOffset p ↔
        ¬ Composition.Overrun before r p) ∧
      (Composition.Overrun before r p → r.originAtOffset p = none ∧
        c.originAtOffset ((before.flatMap Composition.text).length + p) =
          (Composition.join before).originAt
            (Text.countNewlines (before.flatMap Composition.text) : Number) (p : Number) ∧
        (c.originAtOffset ((before.flatMap Composition.text).length + p)).map OriginPosition.capped =
          (((Composition.join before).originAtOffset (before.flatMap Composition.text).length).map
            (OriginPosition.advance · p)).map OriginPosition.capped) := by
  -- the parts are results of constructed sources, whose entries stand at offsets of their texts
  have hresult : ∀ d ∈ before ++ r :: after, d.Proper ∧ d.Counted := by
    intro d hd
    obtain ⟨s, hmem, hsd⟩ := exists_mem_of_forall₂ (compositionsAt_eq_ok hparts) hd
    cases hs with
    | joined hchildren =>
      exact ⟨(compositionAt_proper (hchildren s hmem) hsd).1, compositionAt_counted (hchildren s hmem) hsd⟩
  obtain ⟨hiff, hover⟩ := Composition.originAtOffset_join (fun d hd => (hresult d hd).1) hp
  refine ⟨_, compositionAt_joined.mpr ⟨_, hparts, rfl⟩, Composition.text_join _, ?_, fun h => ?_⟩
  · rwa [Composition.text_join] at hiff
  · obtain ⟨hnone, horigin⟩ := hover h
    have hbefore : ∀ d ∈ before, d.Proper ∧ d.Counted := fun d hd =>
      hresult d (List.mem_append_left _ hd)
    have hcapped := Composition.capped_originAt_join (fun d hd => (hbefore d hd).1)
      (fun d hd => (hbefore d hd).2) h.startsLine p
    rw [← horigin] at hcapped
    rw [Composition.text_join] at horigin hcapped
    exact ⟨hnone, horigin, hcapped⟩

/-- A text that is mapped at its very end goes on over the line joined to it. -/
theorem originAtOffset_joined_overrun :
    ∃ c, compositionAt (32 : Nat) 0 (joined 1
        [generated 0 ⟨"a\n", "x.js", ⟨["a.js"], none, [], "AAAA;AACA", none, none⟩, none, false, false⟩ [],
          plain "bc"]) = .ok c ∧
      (Composition.plain "bc").originAtOffset 1 = none ∧
      c.originAtOffset 3 = some ⟨some "a.js", (1 : Nat), (1 : Nat), none⟩ := by
  have hdecode : MappingTable.decode "AAAA;AACA" =
      .ok [⟨0, 0, some ⟨0, 0, 0, none⟩⟩, ⟨1, 0, some ⟨0, 1, 0, none⟩⟩] := by decide +kernel
  have hs : (joined 1 [generated 0
      ⟨"a\n", "x.js", ⟨["a.js"], none, [], "AAAA;AACA", none, none⟩, none, false, false⟩ [],
        plain "bc"]).Constructed := by
    refine .joined fun s hmem => ?_
    rcases List.mem_cons.mp hmem with rfl | hmem
    · exact .generated hdecode (by decide +kernel) (by simp)
    · rw [List.mem_singleton.mp hmem]
      exact .plain _
  have hparts : compositionsAt (32 : Nat) 0
      [generated 0 ⟨"a\n", "x.js", ⟨["a.js"], none, [], "AAAA;AACA", none, none⟩, none, false, false⟩ [],
        plain "bc"] =
      .ok ([⟨"a\n", [⟨0, 0, some ⟨0, 0, 0, none⟩⟩, ⟨1, 0, some ⟨0, 1, 0, none⟩⟩],
        ⟨[("a.js", none)]⟩, {}, 0⟩] ++ .plain "bc" :: []) := by decide +kernel
  have hp : 1 < (Composition.plain "bc").text.length := by decide
  obtain ⟨c, hc, -, -, hover⟩ := originAtOffset_joined hs hparts hp
  obtain ⟨hnone, heq, -⟩ := hover ⟨⟨by decide +kernel, by decide +kernel, by decide +kernel⟩,
    by decide +kernel⟩
  exact ⟨c, hc, hnone, heq.trans (by decide +kernel)⟩

/-! ## Edited sources -/

/-- A source with the source root in front has a slash, if it is not the source itself. -/
theorem qualified_eq_or {m : SourceMap} {index : Nat} {s plain : Text}
    (hs : m.qualifiedSources[index]? = some s) (hplain : m.sources[index]? = some plain) :
    s = plain ∨ CodeUnit.ofChar '/' ∈ s := by
  unfold SourceMap.qualifiedSources at hs
  split at hs
  · exact Or.inl (Option.some.inj (hs.symm.trans hplain))
  · exact Or.inl (Option.some.inj (hs.symm.trans hplain))
  · rename_i root _ _
    rw [List.getElem?_map, hplain] at hs
    obtain rfl := Option.some.inj hs
    refine Or.inr (List.mem_append_left _ ?_)
    unfold SourceMap.rootText
    split
    · rename_i hlast
      exact List.mem_of_getLast? hlast
    · exact List.mem_append_right _ (List.mem_singleton_self _)

/-- There is one result for each source of a map: that of the further source that stands for it, if
there is one. -/
theorem inputResults_spec {node : GeneratedText} {inputs : List (Text × Source)}
    {results : List (Option Composition)} (h : inputResults limit depth node inputs = .ok results)
    {index : Nat} {s : Text} {result : Option Composition}
    (hentry : (node.map.qualifiedSources.zip results)[index]? = some (s, result)) :
    ∃ plain, node.map.sources[index]? = some plain ∧
      Option.Rel (fun u r => compositionAt limit (depth + 1) u = .ok r)
        ((inputs.lookup s).or (inputs.lookup plain)) result := by
  obtain ⟨hs, hresult⟩ := List.getElem?_zip_eq_some.mp hentry
  have hkeys := forall₂_of_mapM_eq_ok h
  rcases getElem?_of_forall₂ hkeys index with ⟨-, hnone⟩ | ⟨key, result', hkey, hresult', hcompute⟩
  · rw [hresult] at hnone
    cases hnone
  · obtain rfl := Option.some.inj (hresult.symm.trans hresult')
    rw [GeneratedText.keys, List.getElem?_map] at hkey
    obtain ⟨⟨s', plain⟩, hpair, rfl⟩ := Option.map_eq_some_iff.mp hkey
    obtain ⟨hs', hplain⟩ := List.getElem?_zip_eq_some.mp hpair
    obtain rfl := Option.some.inj (hs.symm.trans hs')
    refine ⟨plain, hplain, ?_⟩
    cases hfound : node.key? inputs s plain with
    | none =>
      simp only [hfound, Except.ok.injEq] at hcompute
      rw [← hcompute, or_eq_none_of_key? (qualified_eq_or hs hplain) hfound]
      exact .none
    | some key =>
      simp only [hfound] at hcompute
      split at hcompute
      · cases hcompute
      · obtain ⟨r, hr, rfl⟩ := map_eq_ok_iff.mp hcompute
        obtain ⟨u, hu, hr⟩ := inputCompositionAt_eq_ok_iff.mp hr
        rw [or_eq_of_key? hfound hu]
        exact .some hr

/-- **Maps are traced through further sources.**  The last entry of the map at or before a position on
its line decides.  Its origin stands as it is if no further source stands for its source; otherwise
it is traced through the result of the further source, and kept where that has no mapping.  From there it
moves on by the distance between the two positions.  A traced origin keeps its own name before the
entry's, and any name counts at the entry's position only. -/
theorem originAt_generated (line column : Nat) {node : GeneratedText}
    {inputs : List (Text × Source)} {c : Composition} {table : MappingTable} {start : Nat}
    (hc : compositionAt limit depth (generated id node inputs) = .ok c)
    (htable : MappingTable.decode node.map.mappings = .ok table)
    (hinteger : ∀ m ∈ table, m.column.isInteger = true)
    (hstart : node.text.lineOffsets[line]? = some start)
    (hcolumn : start + column ≤ node.text.lineEnd line) :
    match table.lastUpTo? line column with
    | none => c.originAt line column = none
    | some m =>
      match m.origin with
      | none => c.originAt line column = none
      | some o =>
        ∃ (first d index : Nat) (s plain : Text), m.column = (first : Number) ∧ first + d = column ∧
          o.source = (index : Number) ∧ node.map.qualifiedSources[index]? = some s ∧
          node.map.sources[index]? = some plain ∧
          match (inputs.lookup s).or (inputs.lookup plain) with
          | none =>
            c.originAt line column = some
              ⟨some s, o.line, o.column + (d : Number).rounded,
                if d = 0 then node.nameOf o else none⟩
          | some u =>
            ∃ r, compositionAt limit (depth + 1) u = .ok r ∧
              match r.originAt o.line o.column with
              | none =>
                c.originAt line column = some
                  ⟨some s, o.line, o.column + (d : Number).rounded,
                if d = 0 then node.nameOf o else none⟩
              | some t =>
                c.originAt line column = some ⟨t.source, t.line, t.column + (d : Number).rounded,
                  if d = 0 then t.name.or (node.nameOf o) else none⟩ := by
  obtain ⟨results, table', hresults, htable', hgenerate⟩ := compositionAt_generated.mp hc
  obtain rfl := Except.ok.inj (htable.symm.trans htable')
  have hplaced := MappingTable.decode_placed htable hinteger
  have hsorted := MappingTable.decode_sorted htable hinteger
  have horigin := Composition.originAt_generate hgenerate hplaced hsorted hstart hcolumn
  rw [← MappingTable.lastUpTo?_eq hplaced] at horigin
  cases hm : table.lastUpTo? line column with
  | none => simpa [hm] using horigin
  | some m =>
    rw [MappingTable.lastUpTo?_eq hplaced] at hm
    -- the entry covers a position of the text, so it was not dropped as standing outside of it
    obtain ⟨hmem, hcovers⟩ := List.mem_filter.mp (List.mem_of_getLast? hm)
    have hin := GeneratedText.isInside_of_le hstart hcolumn (hplaced m hmem) hcovers
    rw [MappingTable.lastUpTo?_eq hplaced, hm, Option.bind_some] at horigin
    dsimp only
    cases ho : m.origin with
    | none => simpa [ho] using horigin
    | some o =>
      obtain ⟨own, hown⟩ := Composition.exists_originOf? hgenerate hmem hin ho
      rw [ho, Option.bind_some, hown, Option.map_some] at horigin
      obtain ⟨index, hindex, hown⟩ := Option.bind_eq_some_iff.mp hown
      obtain ⟨⟨s, result⟩, hentry, hown⟩ := Option.bind_eq_some_iff.mp hown
      obtain ⟨plain, hplain, hresult⟩ := inputResults_spec hresults hentry
      obtain ⟨-, hle⟩ := Text.Position.covers_iff.mp hcovers
      refine ⟨m.place.column, column - m.place.column, index, s, plain, (hplaced m hmem).column,
        Nat.add_sub_cancel' hle, Number.eq_natCast_of_toNat? hindex,
        (List.getElem?_zip_eq_some.mp hentry).1, hplain, ?_⟩
      -- what is left is tracing through the further source under the key, if there is one
      rw [horigin, ← Option.some.inj hown]
      generalize (inputs.lookup s).or (inputs.lookup plain) = further at hresult
      cases hresult with
      | none => rfl
      | @some u r hr =>
        refine ⟨r, hr, ?_⟩
        cases ht : r.originAt o.line o.column with
        | none => simp [GeneratedText.traceThrough, ht, OriginPosition.advance]
        | some t => simp [GeneratedText.traceThrough, ht, OriginPosition.advance]

/-- A word is traced through a map to a file that the map's source was made from. -/
theorem originAt_generated_word :
    ∃ c, compositionAt (32 : Nat) 0 (generated 0
        ⟨"xy", "x.js", ⟨["mid.js"], none, ["n"], "AAAIA", none, none⟩, none, false, false⟩
        [("mid.js", file "abc def" "f.js")]) = .ok c ∧
      c.originAt (0 : Nat) (1 : Nat) = some ⟨some "f.js", (0 : Nat), (5 : Nat), none⟩ := by
  have hdecode : MappingTable.decode "AAAIA" =
      .ok [⟨0, 0, some ⟨0, 0, 4, some 0⟩⟩] := by decide +kernel
  have hc : compositionAt (32 : Nat) 0 (generated 0
      ⟨"xy", "x.js", ⟨["mid.js"], none, ["n"], "AAAIA", none, none⟩, none, false, false⟩
      [("mid.js", file "abc def" "f.js")]) =
      .ok ⟨"xy", [⟨0, 0, some ⟨0, 0, 4, some 0⟩⟩], ⟨[("f.js", some "abc def")]⟩, ⟨["n"]⟩, 1⟩ := by
    decide +kernel
  have h := originAt_generated 0 1 hc hdecode (by decide +kernel) rfl (by decide)
  have hlast : MappingTable.lastUpTo? [⟨0, 0, some ⟨0, 0, 4, some 0⟩⟩] 0 1 =
      some ⟨0, 0, some ⟨0, 0, 4, some 0⟩⟩ := by decide +kernel
  rw [hlast] at h
  obtain ⟨first, d, index, s, plain, hfirst, hdistance, hindex, hs, hplain, h⟩ := h
  obtain rfl : 0 = first := Number.natCast_inj.mp hfirst
  obtain rfl : d = 1 := by rwa [Nat.zero_add] at hdistance
  obtain rfl : 0 = index := Number.natCast_inj.mp hindex
  obtain rfl := Option.some.inj hs
  obtain rfl := Option.some.inj hplain
  obtain ⟨r, hr, h⟩ := h
  obtain rfl := Except.ok.inj ((compositionAt_file _ _ _ _).symm.trans hr)
  have ht : (Composition.file "abc def" "f.js").originAt 0 4 = some ⟨some "f.js", 0, 4, none⟩ := by
    decide +kernel
  rw [ht] at h
  exact ⟨_, hc, Eq.trans h (by decide +kernel)⟩

end Source

end Provenance
