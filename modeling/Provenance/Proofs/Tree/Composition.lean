/-
# Composing source trees, node by node

What a source of each kind is composed to in terms of the results of its parts, and the induction over
source trees that goes with it.

The main facts:

* `partsInduction` : what holds of a source if it holds of its parts holds of every source;
* `compositionAt_joined`, `compositionAt_edited`, `compositionAt_generated` : when a source of a kind
  is composed;
* `text_of_compositionAt` : the composed result of a source has its text;
* `compositionAt_of_fits` : a result is the same wherever its chains of source maps stay within the
  limit.
-/
import Provenance.Proofs.Except
import Provenance.Proofs.Lists
import Provenance.Tree.Composition
import Provenance.Tree.Render

namespace Provenance.Source

/-! ## Induction -/

/-- What holds of a source if it holds of its parts holds of every source. -/
@[elab_as_elim]
theorem partsInduction {P : Source → Prop} (plain : ∀ t, P (.plain t))
    (file : ∀ t name, P (.file t name))
    (generated : ∀ id node inputs, (∀ input ∈ inputs, P input.2) → P (.generated id node inputs))
    (joined : ∀ id children, (∀ s ∈ children, P s) → P (.joined id children))
    (edited : ∀ id base edits, P base → P (.edited id base edits))
    (kept : ∀ id child, P child → P (.kept id child)) (s : Source) : P s := by
  -- parts stand in lists, so the induction is on the size, of which a part has less
  induction hn : sizeOf s using Nat.strongRecOn generalizing s with
  | ind n ih =>
    subst hn
    cases s with
    | plain t => exact plain t
    | file t name => exact file t name
    | generated id node inputs =>
      refine generated id node inputs fun input hmem => ih _ ?_ _ rfl
      have hinputs := List.sizeOf_lt_of_mem hmem
      have hpair : sizeOf input = 1 + sizeOf input.1 + sizeOf input.2 := by cases input; rfl
      simp only [Source.generated.sizeOf_spec]
      omega
    | joined id children =>
      refine joined id children fun s hmem => ih _ ?_ _ rfl
      have hchildren := List.sizeOf_lt_of_mem hmem
      simp only [Source.joined.sizeOf_spec]
      omega
    | edited id base edits =>
      refine edited id base edits (ih _ ?_ _ rfl)
      simp only [Source.edited.sizeOf_spec]
      omega
    | kept id child =>
      refine kept id child (ih _ ?_ _ rfl)
      simp only [Source.kept.sizeOf_spec]
      omega

/-! ## Composing one kind of node -/

/-- A joined source is composed if its parts are. -/
theorem compositionAt_joined {limit : Number} {depth : Nat} {id : NodeId} {children : List Source}
    {c : Composition} : compositionAt limit depth (.joined id children) = .ok c ↔
      ∃ cs, compositionsAt limit depth children = .ok cs ∧ .join cs = c := by
  rw [compositionAt, bind_eq_ok_iff]
  simp

/-- Some sources are composed one after the other. -/
theorem compositionsAt_eq_mapM (limit : Number) (depth : Nat) (sources : List Source) :
    compositionsAt limit depth sources = sources.mapM (compositionAt limit depth) := by
  induction sources with
  | nil => rw [compositionsAt]; rfl
  | cons s rest ih =>
    rw [compositionsAt, ih, List.mapM_cons]
    rfl

/-- Some sources are composed if each of them is. -/
theorem compositionsAt_eq_ok {limit : Number} {depth : Nat} {sources : List Source}
    {cs : List Composition} (h : compositionsAt limit depth sources = .ok cs) :
    List.Forall₂ (fun s c => compositionAt limit depth s = .ok c) sources cs := by
  rw [compositionsAt_eq_mapM] at h
  exact forall₂_of_mapM_eq_ok h

/-- Some sources are composed to the results that correspond to them. -/
theorem compositionsAt_of_forall₂ {limit : Number} {depth : Nat} {sources : List Source}
    {cs : List Composition}
    (h : List.Forall₂ (fun s c => compositionAt limit depth s = .ok c) sources cs) :
    compositionsAt limit depth sources = .ok cs := by
  rw [compositionsAt_eq_mapM]
  exact mapM_eq_ok_of_forall₂ h

/-- An edited source is composed if its base is. -/
theorem compositionAt_edited {limit : Number} {depth : Nat} {id : NodeId} {base : Source}
    {edits : List Edit} {c : Composition} :
    compositionAt limit depth (.edited id base edits) = .ok c ↔
      ∃ b, compositionAt limit depth base = .ok b ∧ b.edit edits = c := by
  rw [compositionAt, bind_eq_ok_iff]
  simp

/-- The results that stand for the sources of a map, those that are generated. -/
def inputResults (limit : Number) (depth : Nat) (node : GeneratedText)
    (inputs : List (Text × Source)) : Except ComposeError (List (Option Composition)) :=
  (node.keys inputs).mapM fun key =>
    match key with
    | none => .ok none
    | some key =>
      if limit < ((depth + 1 : Nat) : Number) then .error (.tooDeep node.name (depth + 1))
      else (inputCompositionAt limit (depth + 1) key inputs).map some

/-- A generated text is composed if its further sources are, its map decodes and the entries
resolve. -/
theorem compositionAt_generated {limit : Number} {depth : Nat} {id : NodeId} {node : GeneratedText}
    {inputs : List (Text × Source)} {c : Composition} :
    compositionAt limit depth (.generated id node inputs) = .ok c ↔
      ∃ results table, inputResults limit depth node inputs = .ok results ∧
        MappingTable.decode node.map.mappings = .ok table ∧
        (Composition.generate node results table).2 = .ok c := by
  rw [compositionAt, bind_eq_ok_iff]
  simp only [bind_eq_ok_iff, mapError_eq_ok_iff]
  constructor
  · rintro ⟨results, hresults, table, htable, hc⟩
    exact ⟨results, table, hresults, htable, hc⟩
  · rintro ⟨results, table, hresults, htable, hc⟩
    exact ⟨results, hresults, table, htable, hc⟩

/-- The result for a further source is that of the first source under its key. -/
theorem inputCompositionAt_eq (limit : Number) (depth : Nat) (key : Text)
    (inputs : List (Text × Source)) :
    inputCompositionAt limit depth key inputs =
      match inputs.lookup key with
      | none => .error .notSource
      | some s => compositionAt limit depth s := by
  rw [eq_elim_lookup (g := inputCompositionAt limit depth key) (by rw [inputCompositionAt])
    (fun k s rest => by rw [inputCompositionAt]) inputs]
  cases inputs.lookup key <;> rfl

/-- There is a result for a further source if one stands under its key and is composed. -/
theorem inputCompositionAt_eq_ok_iff {limit : Number} {depth : Nat} {key : Text}
    {inputs : List (Text × Source)} {c : Composition} :
    inputCompositionAt limit depth key inputs = .ok c ↔
      ∃ s, inputs.lookup key = some s ∧ compositionAt limit depth s = .ok c := by
  rw [inputCompositionAt_eq]
  cases inputs.lookup key <;> simp

/-- The results that stand for sources of a map are those of further sources. -/
theorem exists_of_mem_inputResults {limit : Number} {depth : Nat} {node : GeneratedText}
    {inputs : List (Text × Source)} {results : List (Option Composition)} {c : Composition}
    (h : inputResults limit depth node inputs = .ok results) (hc : some c ∈ results) :
    ∃ input ∈ inputs, compositionAt limit (depth + 1) input.2 = .ok c := by
  obtain ⟨key, -, hcompute⟩ := exists_mem_of_forall₂ (forall₂_of_mapM_eq_ok h) hc
  cases key with
  | none => cases hcompute
  | some key =>
    dsimp only at hcompute
    split at hcompute
    · cases hcompute
    · obtain ⟨r, hr, hsome⟩ := map_eq_ok_iff.mp hcompute
      obtain rfl := Option.some.inj hsome
      obtain ⟨s, hs, hr⟩ := inputCompositionAt_eq_ok_iff.mp hr
      exact ⟨(key, s), mem_of_lookup hs, hr⟩

/-! ## Keys -/

/-- What is found and stands for no source has no slash in its key. -/
theorem slash_notMem_of_member? {node : GeneratedText} {key : Text}
    (h : node.member? key = some false) : CodeUnit.ofChar '/' ∉ key := by
  unfold GeneratedText.member? at h
  split at h
  · cases h
  · split at h
    · rename_i htext
      obtain ⟨-, rfl⟩ : node.inherits = true ∧ key = "text" := by simpa using htext
      decide
    · split at h
      · rename_i hflag
        obtain ⟨-, rfl⟩ : node.inherits = true ∧ key = "removeOriginalSource" := by simpa using hflag
        decide
      · split at h
        · cases h
        · cases h

variable {α : Type} {node : GeneratedText} {inputs : List (Text × α)} {qualified plain : Text}

/-- A further source that stands under the key for a source is the one with the source root in front, or
else the one without. -/
theorem or_eq_of_key? {key : Text} {s : α} (h : node.key? inputs qualified plain = some key)
    (hs : inputs.lookup key = some s) :
    (inputs.lookup qualified).or (inputs.lookup plain) = some s := by
  unfold GeneratedText.key? at h
  cases hfound : node.found? inputs qualified with
  | some stands =>
    simp only [hfound] at h
    split at h
    · obtain rfl := Option.some.inj h
      rw [hs, Option.some_or]
    · cases h
  | none =>
    simp only [hfound] at h
    split at h
    · obtain rfl := Option.some.inj h
      have hnone : inputs.lookup qualified = none := by
        by_contra hsome
        rw [GeneratedText.found?, if_pos (Option.isSome_iff_ne_none.mpr hsome)] at hfound
        cases hfound
      rw [hnone, Option.none_or, hs]
    · cases h

/-- Where nothing is found that stands for a source, there is no further source for it. -/
theorem or_eq_none_of_key? (hqualified : qualified = plain ∨ CodeUnit.ofChar '/' ∈ qualified)
    (h : node.key? inputs qualified plain = none) :
    (inputs.lookup qualified).or (inputs.lookup plain) = none := by
  have hlookup : ∀ key, node.found? inputs key ≠ some true → inputs.lookup key = none := by
    intro key hkey
    by_contra hsome
    exact hkey (by rw [GeneratedText.found?, if_pos (Option.isSome_iff_ne_none.mpr hsome)])
  unfold GeneratedText.key? at h
  cases hfound : node.found? inputs qualified with
  | some stands =>
    simp only [hfound] at h
    split at h
    · cases h
    · rename_i hstands
      obtain rfl : stands = false := Bool.eq_false_iff.mpr hstands
      have hnone := hlookup qualified (by rw [hfound]; decide)
      -- such a value is found only under keys that no source root makes
      rcases hqualified with rfl | hslash
      · rw [hnone, Option.or_none]
      · rw [GeneratedText.found?, if_neg (by simp [hnone])] at hfound
        exact absurd hslash (slash_notMem_of_member? hfound)
  | none =>
    simp only [hfound] at h
    split at h
    · cases h
    · rename_i hplain
      rw [hlookup qualified (by rw [hfound]; decide), hlookup plain hplain]
      rfl

/-! ## Texts -/

/-- Results with the texts of some sources have their joined text. -/
theorem flatMap_text_eq_textAll {R : Source → Composition → Prop} {sources : List Source}
    {cs : List Composition} (h : List.Forall₂ R sources cs)
    (htext : ∀ s ∈ sources, ∀ c, R s c → c.text = s.text) :
    cs.flatMap Composition.text = textAll sources := by
  induction h with
  | nil => rfl
  | @cons s c sources cs hsc _ ih =>
    obtain ⟨hs, hrest⟩ := List.forall_mem_cons.mp htext
    rw [List.flatMap_cons, textAll, hs c hsc, ih hrest]

/-- The composed result of a source has its text. -/
theorem text_of_compositionAt {limit : Number} {depth : Nat} {s : Source} {c : Composition}
    (h : compositionAt limit depth s = .ok c) : c.text = s.text := by
  induction s using partsInduction generalizing c with
  | plain t =>
    rw [compositionAt] at h
    obtain rfl := Except.ok.inj h
    rw [text]
    rfl
  | file t name =>
    rw [compositionAt] at h
    obtain rfl := Except.ok.inj h
    rw [text]
    rfl
  | generated id node inputs _ =>
    obtain ⟨results, table, -, -, hc⟩ := compositionAt_generated.mp h
    rw [text, Composition.text_generate hc]
  | joined id children ih =>
    obtain ⟨cs, hcs, rfl⟩ := compositionAt_joined.mp h
    rw [Composition.text_join, text]
    exact flatMap_text_eq_textAll (compositionsAt_eq_ok hcs) fun s hs c hc => ih s hs hc
  | edited id base edits ih =>
    obtain ⟨b, hb, rfl⟩ := compositionAt_edited.mp h
    rw [Composition.text_edit, text, ih hb]
  | kept id child ih =>
    rw [compositionAt] at h
    rw [text, ih h]

/-! ## Limits -/

/-- The chain of a generated text is one longer than the longest of its further sources. -/
theorem chainLength_generate {node : GeneratedText} {results : List (Option Composition)}
    {table : MappingTable} {c : Composition} (h : (Composition.generate node results table).2 = .ok c) :
    c.chainLength = (results.reduceOption.map fun r => r.chainLength + 1).foldl max 0 := by
  unfold Composition.generate at h
  obtain ⟨resolved, -, rfl⟩ := map_eq_ok_iff.mp h
  rw [← List.reduceOption_map, List.reduceOption, List.filterMap_map]
  rfl

/-- **A result is the same wherever its chains of source maps stay within the limit.** -/
theorem compositionAt_of_fits {limit limit' : Number} {depth depth' : Nat} {s : Source}
    {c : Composition} (h : compositionAt limit depth s = .ok c)
    (hfits : ((depth' + c.chainLength : Nat) : Number) ≤ limit') :
    compositionAt limit' depth' s = .ok c := by
  induction s using partsInduction generalizing depth depth' c with
  | plain t =>
    rw [compositionAt] at h ⊢
    exact h
  | file t name =>
    rw [compositionAt] at h ⊢
    exact h
  | generated id node inputs ih =>
    obtain ⟨results, table, hresults, htable, hc⟩ := compositionAt_generated.mp h
    refine compositionAt_generated.mpr ⟨results, table, mapM_eq_ok_of_forall₂ ?_, htable, hc⟩
    apply forall₂_of_mem (forall₂_of_mapM_eq_ok hresults)
    intro key hkey result hresult hcompute
    cases key with
    | none => exact hcompute
    | some key =>
      dsimp only at hcompute ⊢
      split at hcompute
      · cases hcompute
      · obtain ⟨r, hr, rfl⟩ := map_eq_ok_iff.mp hcompute
        obtain ⟨s, hs, hr⟩ := inputCompositionAt_eq_ok_iff.mp hr
        -- the further source stands one map deeper, and its chains are shorter by one
        have hlength : r.chainLength + 1 ≤ c.chainLength := by
          rw [chainLength_generate hc]
          have hmem : r ∈ results.reduceOption := List.reduceOption_mem_iff.mpr hresult
          exact le_foldl_max (List.mem_map_of_mem (f := fun r => r.chainLength + 1) hmem) 0
        have hdeeper : (((depth' + 1) + r.chainLength : Nat) : Number) ≤ limit' :=
          Number.natCast_le_of_le (by omega) hfits
        have hlimit : ¬ limit' < ((depth' + 1 : Nat) : Number) :=
          Number.not_lt_natCast_of_le (Number.natCast_le_of_le (by omega) hfits)
        rw [if_neg hlimit, inputCompositionAt_eq_ok_iff.mpr ⟨s, hs, ih _ (mem_of_lookup hs) hr hdeeper⟩]
        rfl
  | joined id children ih =>
    obtain ⟨cs, hcs, rfl⟩ := compositionAt_joined.mp h
    refine compositionAt_joined.mpr ⟨cs, compositionsAt_of_forall₂ ?_, rfl⟩
    -- no chain of a part is longer than the longest of the joined result
    refine forall₂_of_mem (compositionsAt_eq_ok hcs) fun s hs c hc hsc => ih s hs hsc ?_
    have hlength : c.chainLength ≤ (Composition.join cs).chainLength :=
      le_foldl_max (List.mem_map_of_mem hc) 0
    exact Number.natCast_le_of_le (by omega) hfits
  | edited id base edits ih =>
    obtain ⟨b, hb, rfl⟩ := compositionAt_edited.mp h
    exact compositionAt_edited.mpr ⟨b, ih hb hfits, rfl⟩
  | kept id child ih =>
    rw [compositionAt] at h ⊢
    exact ih h hfits

/-- The composed result of a source, however long its chains of source maps are. -/
def unlimited (s : Source) : Except ComposeError Composition := compositionAt .posInf 0 s

/-- A result under a limit is the result without one. -/
theorem unlimited_of_compositionAt {limit : Number} {depth : Nat} {s : Source} {c : Composition}
    (h : compositionAt limit depth s = .ok c) : s.unlimited = .ok c :=
  compositionAt_of_fits h (Number.natCast_le_posInf _)

/-- The result without a limit is the result under every limit that it fits. -/
theorem compositionAt_of_unlimited {limit : Number} {depth : Nat} {s : Source} {c : Composition}
    (h : s.unlimited = .ok c) (hfits : ((depth + c.chainLength : Nat) : Number) ≤ limit) :
    compositionAt limit depth s = .ok c := compositionAt_of_fits h hfits

end Provenance.Source
