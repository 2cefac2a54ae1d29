/-
# Chains of source maps

The walk of a source enters the parts of each node from the first to the last.  To enter a further
source of a generated text it takes a step through a map, and a source that stands in several places is
entered in each of them.  A step is also taken to a value that is found for a source of the map and is
no source.  The chain of a source is the greatest number of steps that lead one through the other.

The main facts:

* `exists_step_iff` : the walk takes a step beyond a limit if and only if the chain is longer;
* `number_of_first` : the first step beyond a limit is the next one after it.
-/
import Mathlib.Data.Nat.Basic
import Mathlib.Order.Basic
import Provenance.Proofs.Tree.Composition

namespace Provenance

/-- What is found for the sources of the map, in their order: further sources, and values that are no
sources. -/
def GeneratedText.entered (node : GeneratedText) (inputs : List (Text × Source)) :
    List (Option Source) :=
  (node.keys inputs).reduceOption.map fun key => inputs.lookup key

/-- A step through the map of a generated text, with its number among the steps that lead to it. -/
structure ChainStep where
  name : Text
  number : Nat
  deriving DecidableEq, Repr

/-- A step that is taken after another one. -/
def ChainStep.next (st : ChainStep) : ChainStep := { st with number := st.number + 1 }

namespace Source

/-! ## Chains -/

mutual

/-- The length of the longest chain of source maps in a source. -/
def chain : Source → Nat
  | plain _ => 0
  | file _ _ => 0
  | generated _ node inputs => ((node.keys inputs).map fun key =>
      match key with
      | none => 0
      | some key => inputChain key inputs).foldl max 0
  | joined _ children => chainAll children
  | edited _ base _ => chain base
  | kept _ child => chain child

/-- The length of the longest chain of source maps in some sources. -/
def chainAll : List Source → Nat
  | [] => 0
  | s :: rest => max (chain s) (chainAll rest)

/-- The length of the longest chain of source maps through the further source under a key. -/
def inputChain (key : Text) : List (Text × Source) → Nat
  | [] => 1
  | (k, s) :: rest => if k = key then chain s + 1 else inputChain key rest

end

mutual

/-- The steps that the walk of a source takes. -/
def steps : Source → List ChainStep
  | plain _ => []
  | file _ _ => []
  | generated _ node inputs => (node.keys inputs).flatMap fun key =>
      match key with
      | none => []
      | some key => inputSteps node.name key inputs
  | joined _ children => stepsAll children
  | edited _ base _ => steps base
  | kept _ child => steps child

/-- The steps that the walk of some sources takes. -/
def stepsAll : List Source → List ChainStep
  | [] => []
  | s :: rest => steps s ++ stepsAll rest

/-- The step to the further source under a key, and the steps that the walk takes from there. -/
def inputSteps (name key : Text) : List (Text × Source) → List ChainStep
  | [] => [⟨name, 1⟩]
  | (k, s) :: rest =>
    if k = key then ⟨name, 1⟩ :: (steps s).map ChainStep.next else inputSteps name key rest

end

/-! ## One kind of node -/

variable {id : NodeId} {node : GeneratedText} {inputs : List (Text × Source)} {s : Source}
  {children : List Source}

theorem exists_of_mem_entered {u : Source} (h : some u ∈ node.entered inputs) :
    ∃ input ∈ inputs, input.2 = u := by
  obtain ⟨key, -, hu⟩ := List.mem_map.mp h
  exact ⟨_, mem_of_lookup hu, rfl⟩

theorem inputChain_eq (key : Text) (inputs : List (Text × Source)) :
    inputChain key inputs = (inputs.lookup key).elim 0 chain + 1 := by
  rw [eq_elim_lookup (g := inputChain key) (by rw [inputChain])
    (fun k u rest => by rw [inputChain]) inputs]
  cases inputs.lookup key <;> rfl

theorem inputSteps_eq (name key : Text) (inputs : List (Text × Source)) :
    inputSteps name key inputs =
      ⟨name, 1⟩ :: ((inputs.lookup key).elim [] steps).map ChainStep.next := by
  rw [eq_elim_lookup (g := inputSteps name key) (by rw [inputSteps])
    (fun k u rest => by rw [inputSteps]) inputs]
  cases inputs.lookup key <;> rfl

theorem chain_generated : (generated id node inputs).chain =
    ((node.entered inputs).map fun u => u.elim 0 chain + 1).foldl max 0 := by
  refine eq_of_forall_lt_iff fun k => ?_
  rw [chain, lt_foldl_max_iff, lt_foldl_max_iff]
  simp only [GeneratedText.entered, List.map_map, List.mem_map, List.reduceOption_mem_iff]
  refine or_congr_right ⟨?_, ?_⟩
  · rintro ⟨n, ⟨key, hkey, rfl⟩, hlt⟩
    cases key with
    | none => exact absurd hlt (Nat.not_lt_zero k)
    | some key =>
      exact ⟨_, ⟨key, hkey, rfl⟩, Nat.lt_of_lt_of_eq hlt (inputChain_eq key inputs)⟩
  · rintro ⟨n, ⟨key, hkey, rfl⟩, hlt⟩
    exact ⟨_, ⟨some key, hkey, rfl⟩, Nat.lt_of_lt_of_eq hlt (inputChain_eq key inputs).symm⟩

/-- A chain of a generated text leads through what is found for one of the sources of its map. -/
theorem lt_chain_generated_iff {k : Nat} :
    k < (generated id node inputs).chain ↔ ∃ u ∈ node.entered inputs, k < u.elim 0 chain + 1 := by
  rw [chain_generated, lt_foldl_max_iff]
  simp

/-- A chain of joined sources is one of a part. -/
theorem lt_chain_joined_iff {k : Nat} :
    k < (joined id children).chain ↔ ∃ s ∈ children, k < s.chain := by
  rw [chain]
  induction children with
  | nil => simp [chainAll]
  | cons s rest ih =>
    have hmax : k < max s.chain (chainAll rest) ↔ k < s.chain ∨ k < chainAll rest := by omega
    rw [chainAll, hmax, ih, List.exists_mem_cons_iff]

theorem chain_joined : (joined id children).chain = (children.map chain).foldl max 0 := by
  refine eq_of_forall_lt_iff fun k => ?_
  rw [lt_chain_joined_iff, lt_foldl_max_iff]
  simp

theorem steps_generated : (generated id node inputs).steps =
    (node.entered inputs).flatMap fun u =>
      ⟨node.name, 1⟩ :: (u.elim [] steps).map ChainStep.next := by
  rw [steps, GeneratedText.entered]
  induction node.keys inputs with
  | nil => rfl
  | cons key rest ih =>
    cases key with
    | none => rw [List.flatMap_cons, ih, List.reduceOption_cons_of_none, List.nil_append]
    | some key =>
      rw [List.flatMap_cons, ih, List.reduceOption_cons_of_some, List.map_cons, List.flatMap_cons]
      exact congrArg (· ++ _) (inputSteps_eq node.name key inputs)

theorem steps_joined : (joined id children).steps = children.flatMap steps := by
  rw [steps]
  induction children with
  | nil => rw [stepsAll]; rfl
  | cons s rest ih => rw [stepsAll, ih, List.flatMap_cons]

/-! ## Steps beyond a limit -/

/-- The walk of a source takes a step beyond a limit if and only if the chain is longer. -/
theorem exists_step_iff {k : Nat} : (∃ st ∈ s.steps, k < st.number) ↔ k < s.chain := by
  induction s using partsInduction generalizing k with
  | plain t => simp [steps, chain]
  | file t name => simp [steps, chain]
  | generated id node inputs ih =>
    have hentered : ∀ u ∈ node.entered inputs, ∀ k,
        (∃ st ∈ u.elim [] steps, k < st.number) ↔ k < u.elim 0 chain := by
      intro u hu k
      cases u with
      | none => simp
      | some u =>
        obtain ⟨input, hmem, rfl⟩ := exists_of_mem_entered hu
        exact ih input hmem
    rw [lt_chain_generated_iff, steps_generated]
    simp only [List.mem_flatMap, List.mem_cons, List.mem_map]
    constructor
    · rintro ⟨st, ⟨u, hu, rfl | ⟨st, hst, rfl⟩⟩, hlt⟩
      · exact ⟨u, hu, Nat.lt_of_lt_of_le hlt (Nat.le_add_left 1 _)⟩
      · cases k with
        | zero => exact ⟨_, hu, Nat.succ_pos _⟩
        | succ k =>
          have hlt := (hentered u hu k).mp ⟨st, hst, Nat.lt_of_succ_lt_succ hlt⟩
          exact ⟨_, hu, Nat.succ_lt_succ hlt⟩
    · rintro ⟨u, hu, hlt⟩
      cases k with
      | zero => exact ⟨_, ⟨u, hu, Or.inl rfl⟩, Nat.one_pos⟩
      | succ k =>
        obtain ⟨st, hst, hlt⟩ := (hentered u hu k).mpr (Nat.lt_of_succ_lt_succ hlt)
        exact ⟨_, ⟨_, hu, Or.inr ⟨st, hst, rfl⟩⟩, Nat.succ_lt_succ hlt⟩
  | joined id children ih =>
    rw [lt_chain_joined_iff, steps_joined]
    simp only [List.mem_flatMap]
    constructor
    · rintro ⟨st, ⟨s, hs, hst⟩, hlt⟩
      exact ⟨s, hs, (ih s hs).mp ⟨st, hst, hlt⟩⟩
    · rintro ⟨s, hs, hlt⟩
      obtain ⟨st, hst, hlt⟩ := (ih s hs).mpr hlt
      exact ⟨st, ⟨s, hs, hst⟩, hlt⟩
  | edited id base edits ih => rw [steps, chain, ih]
  | kept id child ih => rw [steps, chain, ih]

/-- **The first step beyond a limit is the next one after it.** -/
theorem number_of_first {n : Nat} {st : ChainStep}
    (h : s.steps.find? (fun st => n < st.number) = some st) : st.number = n + 1 := by
  induction s using partsInduction generalizing n st with
  | plain t => simp [steps] at h
  | file t name => simp [steps] at h
  | generated id node inputs ih =>
    rw [steps_generated, List.find?_flatMap] at h
    obtain ⟨u, hu, h⟩ := List.exists_of_findSome?_eq_some h
    cases n with
    | zero =>
      rw [List.find?_cons_of_pos (by simp)] at h
      rw [← Option.some.inj h]
    | succ n =>
      rw [List.find?_cons_of_neg (by simp), List.find?_map] at h
      obtain ⟨st, hst, rfl⟩ := Option.map_eq_some_iff.mp h
      have hst : (u.elim [] steps).find? (fun st => n < st.number) = some st := by
        simpa [Function.comp_def, ChainStep.next] using hst
      cases u with
      | none => simp at hst
      | some u =>
      obtain ⟨input, hmem, rfl⟩ := exists_of_mem_entered hu
      show st.number + 1 = n + 1 + 1
      rw [ih input hmem hst]
  | joined id children ih =>
    rw [steps_joined, List.find?_flatMap] at h
    obtain ⟨s, hs, h⟩ := List.exists_of_findSome?_eq_some h
    exact ih s hs h
  | edited id base edits ih =>
    rw [steps] at h
    exact ih h
  | kept id child ih =>
    rw [steps] at h
    exact ih h

end Source

end Provenance
