/-
# Composing under a limit

A source is composed if the walk stays within the limit and every map that it meets lists the sources
that its entries refer to, each of them found as a source or not at all.  Otherwise it is refused, at the
first step beyond the limit or where a map refers to no source.

The main facts:

* `walkOutcome_mapM` : some sources are composed or refused as each of them is;
* `chainOutcome_compositionAt` : a constructed source is refused, or composed to a result with its chain;
* `compose_of_chain_le`, `compose_of_lt_chain` : composing under a limit that the chain fits, and under
  one that it exceeds;
* `unlimited_of_constructed` : when there is a result without a limit.
-/
import Provenance.Proofs.Composition.Regular
import Provenance.Proofs.Tree.Chain
import Provenance.Proofs.Tree.Constructed

namespace Provenance.Source

variable {id : NodeId} {node : GeneratedText} {inputs : List (Text × Source)} {s : Source}
  {children : List Source}

/-! ## Resolvable sources -/

/-- Every map that the walk of a source meets lists the sources that its entries inside the text refer
to, and nothing but sources is found for them. -/
inductive Resolvable : Source → Prop where
  | plain (t : Text) : Resolvable (.plain t)
  | file (t name : Text) : Resolvable (.file t name)
  | generated {id : NodeId} {node : GeneratedText} {inputs : List (Text × Source)}
      {table : MappingTable} (hdecode : MappingTable.decode node.map.mappings = .ok table)
      (hlisted : node.Listed table) (hsources : none ∉ node.entered inputs)
      (hentered : ∀ u, some u ∈ node.entered inputs → Resolvable u) :
      Resolvable (.generated id node inputs)
  | joined {id : NodeId} {children : List Source} (hchildren : ∀ s ∈ children, Resolvable s) :
      Resolvable (.joined id children)
  | edited {id : NodeId} {base : Source} {edits : List Edit} (hbase : Resolvable base) :
      Resolvable (.edited id base edits)
  | kept {id : NodeId} {child : Source} (hchild : Resolvable child) : Resolvable (.kept id child)

theorem resolvable_generated_iff {table : MappingTable}
    (hdecode : MappingTable.decode node.map.mappings = .ok table) :
    (generated id node inputs).Resolvable ↔
      node.Listed table ∧ ∀ u ∈ node.entered inputs, u.elim False Resolvable := by
  constructor
  · intro h
    cases h with
    | generated hdecode' hlisted hsources hentered =>
      obtain rfl := Except.ok.inj (hdecode.symm.trans hdecode')
      refine ⟨hlisted, fun u hu => ?_⟩
      cases u with
      | none => exact hsources hu
      | some u => exact hentered u hu
  · rintro ⟨hlisted, hentered⟩
    exact .generated hdecode hlisted (fun hnone => hentered none hnone) fun u hu =>
      hentered (some u) hu

theorem resolvable_joined_iff :
    (joined id children).Resolvable ↔ ∀ s ∈ children, s.Resolvable := by
  constructor
  · intro h
    cases h with
    | joined hchildren => exact hchildren
  · exact .joined

theorem resolvable_edited_iff {base : Source} {edits : List Edit} :
    (edited id base edits).Resolvable ↔ base.Resolvable := by
  constructor
  · intro h
    cases h with
    | edited hbase => exact hbase
  · exact .edited

theorem resolvable_kept_iff : (kept id s).Resolvable ↔ s.Resolvable := by
  constructor
  · intro h
    cases h with
    | kept hchild => exact hchild
  · exact .kept

/-! ## Outcomes of a walk -/

variable {limit : Number} {depth : Nat}

/-- Whether a step from a node that is reached through `depth` source maps is beyond a limit. -/
def beyond (limit : Number) (depth : Nat) (st : ChainStep) : Bool :=
  decide (limit < ((depth + st.number : Nat) : Number))

/-- A map refers to no source: its entries to one that it does not list, or a listed source to what is
no source. -/
inductive Unresolved : ComposeError → Prop where
  | noSource : Unresolved (.resolve .noSource)
  | notSource : Unresolved .notSource

/-- Why a source can be refused that is reached through `depth` source maps: the first step beyond the
limit is too deep, or the source is not resolvable. -/
inductive Refused (limit : Number) (depth : Nat) (steps : List ChainStep) (resolvable : Prop) :
    ComposeError → Prop where
  | tooDeep {st : ChainStep} (hfirst : steps.find? (beyond limit depth) = some st) :
      Refused limit depth steps resolvable (.tooDeep st.name (depth + st.number))
  | unresolved {e : ComposeError} (h : ¬ resolvable) (he : Unresolved e) :
      Refused limit depth steps resolvable e

/-- What the walk of a source that is reached through `depth` source maps can result in: it takes some
steps within the limit and results in something with a property, or is refused. -/
def WalkOutcome {α : Type} (limit : Number) (depth : Nat) (steps : List ChainStep) (resolvable : Prop)
    (P : α → Prop) : Except ComposeError α → Prop
  | .ok a => resolvable ∧ steps.find? (beyond limit depth) = none ∧ P a
  | .error e => Refused limit depth steps resolvable e

/-- What a source that is reached through `depth` source maps can be composed to: a result with its
chain, if its walk stays within the limit. -/
def ChainOutcome (limit : Number) (depth : Nat) (s : Source) : Except ComposeError Composition → Prop :=
  WalkOutcome limit depth s.steps s.Resolvable fun c => c.chainLength = s.chain

/-- A result that is worked on further. -/
theorem WalkOutcome.bind_ok {α β : Type} {taken : List ChainStep} {p q : Prop} {P : α → Prop}
    {Q : β → Prop} {r : Except ComposeError α} {f : α → β} (h : WalkOutcome limit depth taken p P r)
    (hiff : q ↔ p) (himp : ∀ a, P a → Q (f a)) :
    WalkOutcome limit depth taken q Q (r >>= fun a => .ok (f a)) := by
  rw [hiff]
  cases r with
  | error e => exact h
  | ok a =>
    obtain ⟨hresolvable, hfits, ha⟩ := h
    exact ⟨hresolvable, hfits, himp a ha⟩

/-- Some sources are refused as the first of them that is, and result in what each of them does. -/
theorem walkOutcome_mapM {α : Type} {f : α → Except ComposeError Composition}
    {stepsOf : α → List ChainStep} {resolvable : α → Prop} {length : α → Nat} {xs : List α}
    (h : ∀ x ∈ xs, WalkOutcome limit depth (stepsOf x) (resolvable x)
      (fun c => c.chainLength = length x) (f x)) :
    WalkOutcome limit depth (xs.flatMap stepsOf) (∀ x ∈ xs, resolvable x)
      (fun cs => cs.map Composition.chainLength = xs.map length) (xs.mapM f) := by
  have hok : ∀ x ∈ xs, ∀ c, f x = .ok c → resolvable x ∧
      (stepsOf x).find? (beyond limit depth) = none ∧ c.chainLength = length x := by
    intro x hx c hc
    have houtcome := h x hx
    rwa [hc] at houtcome
  cases hresults : xs.mapM f with
  | ok cs =>
    have hforall := forall₂_of_mem (forall₂_of_mapM_eq_ok hresults) fun x hx c _ hc => hok x hx c hc
    have hmem : ∀ x ∈ xs, resolvable x ∧ (stepsOf x).find? (beyond limit depth) = none := by
      intro x hx
      obtain ⟨c, -, hresolvable, hfits, -⟩ := exists_mem_of_forall₂ hforall.flip hx
      exact ⟨hresolvable, hfits⟩
    refine ⟨fun x hx => (hmem x hx).1, ?_, ?_⟩
    · rw [List.find?_flatMap, List.findSome?_eq_none_iff]
      exact fun x hx => (hmem x hx).2
    · show cs.map Composition.chainLength = xs.map length
      rw [← List.forall₂_eq_eq_eq, List.forall₂_map_left_iff, List.forall₂_map_right_iff]
      exact hforall.flip.imp fun c x hc => hc.2.2
  | error e =>
    obtain ⟨before, x, after, rfl, hbefore, hx⟩ := mapM_eq_error_iff.mp hresults
    have hmem : x ∈ before ++ x :: after := List.mem_append_right _ List.mem_cons_self
    have houtcome := h x hmem
    rw [hx] at houtcome
    show Refused limit depth _ _ e
    cases houtcome with
    | tooDeep hfirst =>
      refine .tooDeep (find?_flatMap_of_first (fun y hy => ?_) hfirst)
      obtain ⟨c, hc⟩ := hbefore y hy
      exact (hok y (List.mem_append_left _ hy) c hc).2.1
    | unresolved hresolvable he => exact .unresolved (fun hall => hresolvable (hall x hmem)) he

/-! ## Composing a source -/

/-- The result of what is found for a source of a generated text, which is reached by one step more. -/
def enter (limit : Number) (depth : Nat) (node : GeneratedText) (u : Option Source) :
    Except ComposeError Composition :=
  if limit < ((depth + 1 : Nat) : Number) then .error (.tooDeep node.name (depth + 1))
  else u.elim (.error .notSource) (compositionAt limit (depth + 1))

/-- The results that stand for sources of a map are those of what is found for them. -/
theorem inputResults_map (limit : Number) (depth : Nat) (node : GeneratedText)
    (inputs : List (Text × Source)) :
    (inputResults limit depth node inputs).map List.reduceOption =
      (node.entered inputs).mapM (enter limit depth node) := by
  have hentered : node.entered inputs =
      (node.keys inputs).filterMap fun key => key.map fun key => inputs.lookup key := by
    rw [GeneratedText.entered, List.reduceOption, List.map_filterMap]
    rfl
  rw [hentered]
  refine mapM_filterMap fun key _ => ?_
  cases key with
  | none => rfl
  | some key =>
    simp only [Option.map_some, Option.elim_some, enter, inputCompositionAt_eq]
    split
    · rfl
    · cases inputs.lookup key <;> rfl

/-- What is found for a source is refused where it is entered, or is composed one step deeper. -/
theorem walkOutcome_enter {u : Option Source}
    (h : ∀ s ∈ u, ChainOutcome limit (depth + 1) s (compositionAt limit (depth + 1) s)) :
    WalkOutcome limit depth (⟨node.name, 1⟩ :: (u.elim [] steps).map ChainStep.next)
      (u.elim False Resolvable) (fun c => c.chainLength = u.elim 0 chain)
      (enter limit depth node u) := by
  have hnext : beyond limit depth ∘ ChainStep.next = beyond limit (depth + 1) := by
    funext st
    show beyond limit depth st.next = beyond limit (depth + 1) st
    rw [beyond, beyond, ChainStep.next, ← Nat.add_assoc, Nat.add_right_comm]
  unfold enter
  by_cases hlimit : limit < ((depth + 1 : Nat) : Number)
  · rw [if_pos hlimit]
    exact Refused.tooDeep (List.find?_cons_of_pos (decide_eq_true hlimit))
  · have hfind : (⟨node.name, 1⟩ :: (u.elim [] steps).map ChainStep.next).find?
        (beyond limit depth) =
        ((u.elim [] steps).find? (beyond limit (depth + 1))).map ChainStep.next := by
      rw [List.find?_cons_of_neg (by simpa [beyond] using hlimit), List.find?_map, hnext]
    rw [if_neg hlimit]
    cases u with
    | none => exact Refused.unresolved not_false .notSource
    | some s =>
      rw [Option.elim_some] at hfind
      have h := h s rfl
      simp only [Option.elim_some]
      cases hresult : compositionAt limit (depth + 1) s with
      | ok c =>
        rw [hresult] at h
        obtain ⟨hresolvable, hfits, hlength⟩ := h
        exact ⟨hresolvable, by rw [hfind, hfits]; rfl, hlength⟩
      | error e =>
        rw [hresult] at h
        show Refused limit depth _ _ e
        cases h with
        | @tooDeep st hfirst =>
          have hnumber : depth + 1 + st.number = depth + st.next.number := by
            show depth + 1 + st.number = depth + (st.number + 1)
            omega
          rw [hnumber]
          exact .tooDeep (by rw [hfind, hfirst]; rfl)
        | unresolved hresolvable he => exact .unresolved hresolvable he

/-- There is one result for each source of a map. -/
theorem length_inputResults {results : List (Option Composition)}
    (h : inputResults limit depth node inputs = .ok results) :
    results.length = node.map.sources.length := by
  rw [← (forall₂_of_mapM_eq_ok h).length_eq, GeneratedText.keys, List.length_map, List.length_zip,
    SourceMap.length_qualifiedSources, Nat.min_self]

theorem compositionAt_generated_eq {table : MappingTable}
    (hdecode : MappingTable.decode node.map.mappings = .ok table) :
    compositionAt limit depth (generated id node inputs) =
      inputResults limit depth node inputs >>= fun results =>
        (Composition.generate node results table).2.mapError .resolve := by
  rw [compositionAt, hdecode]
  rfl

/-- A map is traced through the results of constructed sources if and only if it lists what its entries
refer to. -/
theorem generate_cases_of_inputResults {results : List (Option Composition)}
    (hinputs : ∀ input ∈ inputs, Constructed input.2)
    (hresults : inputResults limit depth node inputs = .ok results) (table : MappingTable) :
    (node.Listed table ∧ ∃ c, (Composition.generate node results table).2 = .ok c) ∨
      (¬ node.Listed table ∧ (Composition.generate node results table).2 = .error .noSource) := by
  refine Composition.generate_cases (fun c hc => ?_) (length_inputResults hresults)
  obtain ⟨input, hmem, hcompose⟩ := exists_of_mem_inputResults hresults hc
  exact (compositionAt_proper (hinputs input hmem) hcompose).1

/-- A generated text is composed if its further sources are, and its map lists what its entries refer
to. -/
theorem chainOutcome_generated {table : MappingTable}
    (hdecode : MappingTable.decode node.map.mappings = .ok table)
    (hinputs : ∀ input ∈ inputs, Constructed input.2)
    (h : ∀ input ∈ inputs,
      ChainOutcome limit (depth + 1) input.2 (compositionAt limit (depth + 1) input.2)) :
    ChainOutcome limit depth (generated id node inputs)
      (compositionAt limit depth (generated id node inputs)) := by
  have hentered : ∀ u ∈ node.entered inputs,
      WalkOutcome limit depth (⟨node.name, 1⟩ :: (u.elim [] steps).map ChainStep.next)
        (u.elim False Resolvable) (fun c => c.chainLength = u.elim 0 chain)
        (enter limit depth node u) := by
    intro u hu
    refine walkOutcome_enter ?_
    rintro s rfl
    obtain ⟨input, hmem, rfl⟩ := exists_of_mem_entered hu
    exact h input hmem
  have hwalk := walkOutcome_mapM hentered
  rw [← inputResults_map] at hwalk
  rw [compositionAt_generated_eq hdecode]
  unfold ChainOutcome
  rw [steps_generated, resolvable_generated_iff hdecode]
  cases hresults : inputResults limit depth node inputs with
  | error e =>
    rw [hresults] at hwalk
    show Refused limit depth _ _ e
    cases hwalk with
    | tooDeep hfirst => exact .tooDeep hfirst
    | unresolved hentered he => exact .unresolved (fun hresolvable => hentered hresolvable.2) he
  | ok results =>
    rw [hresults] at hwalk
    obtain ⟨hentered, hfits, hlengths⟩ := hwalk
    show WalkOutcome limit depth _ _ _ ((Composition.generate node results table).2.mapError .resolve)
    rcases generate_cases_of_inputResults hinputs hresults table with
      ⟨hlisted, c, hc⟩ | ⟨hlisted, herror⟩
    · rw [hc]
      refine ⟨⟨hlisted, hentered⟩, hfits, ?_⟩
      have hsucc := congrArg (List.map (· + 1)) hlengths
      rw [List.map_map, List.map_map] at hsucc
      show c.chainLength = (generated id node inputs).chain
      rw [chainLength_generate hc, chain_generated]
      exact congrArg (List.foldl max 0) hsucc
    · rw [herror]
      exact Refused.unresolved (fun hresolvable => hlisted hresolvable.1) .noSource

/-- **A constructed source is refused at the first step beyond the limit**, or where a map refers to a
source that it does not list.  Otherwise it is composed to a result with its chain. -/
theorem chainOutcome_compositionAt (hs : s.Constructed) (limit : Number) (depth : Nat) :
    ChainOutcome limit depth s (compositionAt limit depth s) := by
  induction hs generalizing depth with
  | plain t =>
    rw [compositionAt_plain]
    exact ⟨.plain t, by rw [steps]; rfl, by rw [chain]; rfl⟩
  | file t name =>
    rw [compositionAt_file]
    exact ⟨.file t name, by rw [steps]; rfl, by rw [chain]; rfl⟩
  | generated hdecode hcheck hinputs ih =>
    exact chainOutcome_generated hdecode hinputs fun input hmem => ih input hmem (depth + 1)
  | joined hchildren ih =>
    rw [compositionAt, compositionsAt_eq_mapM]
    unfold ChainOutcome
    rw [steps_joined]
    refine (walkOutcome_mapM fun s hs => ih s hs depth).bind_ok resolvable_joined_iff
      fun cs hlengths => ?_
    rw [chain_joined, ← hlengths]
    rfl
  | edited hbase hcheck ih =>
    rw [compositionAt]
    unfold ChainOutcome
    rw [steps, chain]
    exact (ih depth).bind_ok resolvable_edited_iff fun c hlength => hlength
  | kept hchild ih =>
    rw [compositionAt_kept]
    unfold ChainOutcome
    rw [steps, chain, resolvable_kept_iff]
    exact ih depth

/-! ## Limits -/

/-- **Limits that no step is beyond** make no difference. -/
theorem compositionAt_of_within {limit' : Number} {depth' : Nat}
    (h : ∀ st ∈ s.steps, beyond limit depth st = false)
    (h' : ∀ st ∈ s.steps, beyond limit' depth' st = false) :
    compositionAt limit depth s = compositionAt limit' depth' s := by
  induction s using partsInduction generalizing depth depth' with
  | plain t => rw [compositionAt_plain, compositionAt_plain]
  | file t name => rw [compositionAt_file, compositionAt_file]
  | generated id node inputs ih =>
    rw [steps_generated] at h h'
    -- a step from a further source is one from the text with a number greater by one
    have hnext : ∀ {limit : Number} {depth : Nat},
        (∀ st ∈ (node.entered inputs).flatMap fun u =>
          ⟨node.name, 1⟩ :: (u.elim [] steps).map ChainStep.next, beyond limit depth st = false) →
        ∀ u ∈ node.entered inputs, ¬ limit < ((depth + 1 : Nat) : Number) ∧
          ∀ st ∈ u.elim [] steps, beyond limit (depth + 1) st = false := by
      intro limit depth h u hu
      obtain ⟨hfirst, hrest⟩ := List.forall_mem_cons.mp fun st hst =>
        h st (List.mem_flatMap.mpr ⟨u, hu, hst⟩)
      refine ⟨of_decide_eq_false hfirst, fun st hst => ?_⟩
      rw [← hrest _ (List.mem_map_of_mem hst), beyond, beyond, ChainStep.next, ← Nat.add_assoc,
        Nat.add_right_comm]
    have hresults : inputResults limit depth node inputs = inputResults limit' depth' node inputs := by
      refine mapM_congr fun key hkey => ?_
      cases key with
      | none => rfl
      | some key =>
        have hentered : inputs.lookup key ∈ node.entered inputs :=
          List.mem_map_of_mem (List.reduceOption_mem_iff.mpr hkey)
        obtain ⟨hlimit, hsteps⟩ := hnext h _ hentered
        obtain ⟨hlimit', hsteps'⟩ := hnext h' _ hentered
        simp only [if_neg hlimit, if_neg hlimit', inputCompositionAt_eq]
        cases hs : inputs.lookup key with
        | none => rfl
        | some s =>
          rw [hs] at hsteps hsteps'
          exact congrArg (Except.map some) (ih (key, s) (mem_of_lookup hs) hsteps hsteps')
    rw [compositionAt, compositionAt]
    exact congrArg (· >>= _) hresults
  | joined id children ih =>
    rw [steps_joined] at h h'
    rw [compositionAt, compositionAt, compositionsAt_eq_mapM, compositionsAt_eq_mapM]
    refine congrArg (· >>= _) (mapM_congr fun s hs => ih s hs ?_ ?_)
    · exact fun st hst => h st (List.mem_flatMap.mpr ⟨s, hs, hst⟩)
    · exact fun st hst => h' st (List.mem_flatMap.mpr ⟨s, hs, hst⟩)
  | edited id base edits ih =>
    rw [steps] at h h'
    rw [compositionAt, compositionAt, ih h h']
  | kept id child ih =>
    rw [steps] at h h'
    rw [compositionAt_kept, compositionAt_kept, ih h h']

/-- **Within a limit** that its chain does not exceed, a source has the result that it has without a
limit. -/
theorem compose_of_chain_le {n : Nat} (hn : s.chain ≤ n) : s.compose n = s.unlimited := by
  refine compositionAt_of_within (fun st hst => ?_) fun st hst => ?_
  · -- a step beyond the limit would be longer than the chain
    refine decide_eq_false fun hbeyond => ?_
    rw [Nat.zero_add, Number.natCast_lt] at hbeyond
    exact absurd (exists_step_iff.mp ⟨st, hst, hbeyond⟩) (Nat.not_lt_of_le hn)
  · exact decide_eq_false (Number.not_lt_natCast_of_le (Number.natCast_le_posInf _))

/-- **Without a limit**, a constructed source is composed to a result with its chain if and only if it is
resolvable. -/
theorem unlimited_of_constructed (hs : s.Constructed) :
    (s.Resolvable → ∃ c, s.unlimited = .ok c ∧ c.chainLength = s.chain) ∧
      (¬ s.Resolvable → ∃ e, Unresolved e ∧ s.unlimited = .error e) := by
  have houtcome := chainOutcome_compositionAt hs .posInf 0
  rw [← unlimited] at houtcome
  cases hresult : s.unlimited with
  | ok c =>
    rw [hresult] at houtcome
    obtain ⟨hresolvable, -, hlength⟩ := houtcome
    exact ⟨fun _ => ⟨c, rfl, hlength⟩, fun h => absurd hresolvable h⟩
  | error e =>
    rw [hresult] at houtcome
    cases houtcome with
    | @tooDeep st hfirst =>
      have hbeyond : beyond .posInf 0 st = true := List.find?_some hfirst
      exact absurd (of_decide_eq_true hbeyond)
        (Number.not_lt_natCast_of_le (Number.natCast_le_posInf _))
    | unresolved hresolvable he => exact ⟨fun h => absurd h hresolvable, fun _ => ⟨e, he, rfl⟩⟩

/-- **Beyond a limit** that its chain exceeds, a constructed source is refused at the first step of its
walk that is longer than the limit, unless it fails for being not resolvable. -/
theorem compose_of_lt_chain (hs : s.Constructed) {n : Nat} (hn : n < s.chain) :
    ∃ st, s.steps.find? (fun st => n < st.number) = some st ∧ st.number = n + 1 ∧
      (s.compose n = .error (.tooDeep st.name (n + 1)) ∨
        ¬ s.Resolvable ∧ ∃ e, Unresolved e ∧ s.compose n = .error e) := by
  have hbeyond : beyond (n : Number) 0 = fun st => decide (n < st.number) := by
    funext st
    rw [beyond, Nat.zero_add]
    exact decide_eq_decide.mpr Number.natCast_lt
  obtain ⟨st, hst⟩ : ∃ st, s.steps.find? (fun st => decide (n < st.number)) = some st := by
    obtain ⟨st, hmem, hlt⟩ := exists_step_iff.mpr hn
    exact Option.isSome_iff_exists.mp (List.find?_isSome.mpr ⟨st, hmem, decide_eq_true hlt⟩)
  have hnumber := number_of_first hst
  refine ⟨st, hst, hnumber, ?_⟩
  have houtcome := chainOutcome_compositionAt hs n 0
  rw [← compose] at houtcome
  cases hresult : s.compose n with
  | ok c =>
    rw [hresult] at houtcome
    obtain ⟨-, hfits, -⟩ := houtcome
    rw [hbeyond, hst] at hfits
    cases hfits
  | error e =>
    rw [hresult] at houtcome
    cases houtcome with
    | @tooDeep st' hfirst =>
      rw [hbeyond, hst] at hfirst
      obtain rfl := Option.some.inj hfirst
      rw [Nat.zero_add, hnumber]
      exact Or.inl rfl
    | unresolved hresolvable he => exact Or.inr ⟨hresolvable, e, he, rfl⟩

end Provenance.Source
