/-
# Building with right texts

Stores that differ only in which texts their cells have build the same sources from a plan, and go on to
differ in nothing else: a new node gets the same identity in both, and its cell is empty in both.
Nothing is asked of the texts in the plan, nor of what has been hashed.

The main facts:

* `newNode_places` : a new node is at the place of its identity;
* `build_places` : building a source.
-/
import Provenance.Proofs.Session.Alike
import Provenance.Proofs.Session.Formed

namespace Provenance.Session

/-! ## Sources in play -/

/-- Two stores differ in remembered texts only, which are right for the nodes of some sources. -/
def InPlay (sources : List Source) (s t : Store) : Prop :=
  ∃ nodes, s.Peers nodes t ∧ ∀ x ∈ sources, x.Placed nodes

theorem InPlay.subset {sources sources' : List Source} {s t : Store} (h : InPlay sources s t)
    (hsub : sources' ⊆ sources) : InPlay sources' s t := by
  obtain ⟨nodes, hpeers, hplaced⟩ := h
  exact ⟨nodes, hpeers, fun x hx => hplaced x (hsub hx)⟩

theorem InPlay.notices {sources : List Source} {s t : Store} (h : InPlay sources s t) :
    t.notices = s.notices := by
  obtain ⟨nodes, hpeers, -⟩ := h
  exact hpeers.same Store.notices fun _ => rfl

/-- From stores that differ in remembered texts an action has the same result, and leaves stores that do
so, with the sources of the result in play as well. -/
def Places {ε α : Type} (sources : List Source) (parts : α → List Source) (m : EStateM ε Store α) :
    Prop :=
  Agrees (InPlay sources) m fun r s t =>
    match r with
    | .ok v => InPlay (parts v ++ sources) s t
    | .error _ => InPlay sources s t

namespace Places

variable {ε α β : Type} {sources : List Source} {parts : α → List Source} {m : EStateM ε Store α}

protected theorem pure {v : α}
    (h : ∀ nodes, (∀ x ∈ sources, x.Placed nodes) → ∀ x ∈ parts v, x.Placed nodes) :
    Places sources parts (pure v : EStateM ε Store α) := by
  apply Agrees.pure
  rintro s t ⟨nodes, hpeers, hplaced⟩
  exact ⟨nodes, hpeers, List.forall_mem_append.mpr ⟨h nodes hplaced, hplaced⟩⟩

/-- A result that is made of sources in play. -/
theorem pure_of_subset {v : α} (h : parts v ⊆ sources) :
    Places sources parts (pure v : EStateM ε Store α) :=
  Places.pure fun _ hplaced x hx => hplaced x (h hx)

theorem pure_of_mem {x : Source} (h : x ∈ sources) :
    Places sources (fun x => [x]) (pure x : EStateM ε Store Source) :=
  pure_of_subset (List.cons_subset.mpr ⟨h, List.nil_subset _⟩)

protected theorem throw (e : ε) : Places sources parts (throw e : EStateM ε Store α) :=
  Agrees.throw fun _ _ h => h

/-- One action after another: the second finds the sources of the first in play. -/
protected theorem bind {f : α → EStateM ε Store β} {parts' : β → List Source}
    (hm : Places sources parts m) (hf : ∀ v, Places (parts v ++ sources) parts' (f v)) :
    Places sources parts' (m >>= f) := by
  refine Agrees.bind hm (fun v => Agrees.imp (hf v) (fun _ _ h => h) ?_) fun _ _ _ h => h
  rintro (e | w) s t h
  · exact h.subset (List.subset_append_right _ _)
  · apply h.subset
    intro x hx
    rcases List.mem_append.mp hx with hx | hx
    · exact List.mem_append_left _ hx
    · exact List.mem_append_right _ (List.mem_append_right _ hx)

/-- An action about sources in play that makes none. -/
theorem of_steady (h : ∀ nodes, (∀ x ∈ sources, x.Placed nodes) → Steady (Store.Peers nodes) m)
    (hparts : ∀ v, parts v = []) : Places sources parts m := by
  rintro s t ⟨nodes, hpeers, hplaced⟩
  obtain ⟨hresult, hpeers'⟩ := h nodes hplaced s t hpeers
  have hplay : InPlay sources (outcome m s).2 (outcome m t).2 := ⟨nodes, hpeers', hplaced⟩
  refine ⟨hresult, ?_⟩
  cases (outcome m s).1 with
  | ok v =>
    dsimp only
    rw [hparts]
    exact hplay
  | error e => exact hplay

end Places

/-! ## New nodes -/

variable {sources : List Source}

/-- **A new node is at the place of its identity**, which is the same in both. -/
theorem newNode_places {make : NodeId → Source}
    (hmake : ∀ nodes, (∀ x ∈ sources, x.Placed nodes) → ∀ id, nodes id = some (make id) →
      (make id).Placed nodes) :
    Places sources (fun x => [x])
      (do
        let id ← freshId
        pure (make id)) := by
  rintro s t ⟨nodes, hpeers, hplaced⟩
  -- the identity stood for no node, so the sources there are do not notice that it does now
  let nodes' : NodeId → Option Source := fun id =>
    if id = s.nextId then some (make id) else nodes id
  have hold : ∀ id x, nodes id = some x → nodes' id = some x := by
    intro id x hx
    have hne : id ≠ s.nextId := by
      rintro rfl
      rw [(hpeers.left.unused _ (Nat.le_refl _)).1] at hx
      cases hx
    exact (if_neg hne).trans hx
  have hplaced' : ∀ x ∈ sources, x.Placed nodes' := fun x hx => (hplaced x hx).mono hold
  have hshown : ∀ u : Store, u.nextId = s.nextId → u.Shown nodes →
      ({ u with nextId := u.nextId + 1 } : Store).Shown nodes' := by
    intro u hu hshown
    constructor
    · intro id child hid
      -- the cell of the new node is empty
      by_cases heq : id = s.nextId
      · have hempty := (hshown.unused id (Nat.le_of_eq (hu.trans heq.symm))).2
        show (u.cell id).Shows child
        rw [hempty]
        exact Cell.shows_empty child
      · exact hshown.cell id child ((if_neg heq).symm.trans hid)
    · intro id hle
      have hlt : u.nextId < id := hle
      have hne : id ≠ s.nextId := by
        rw [← hu]
        exact Nat.ne_of_gt hlt
      obtain ⟨hnone, hcell⟩ := hshown.unused id (Nat.le_of_lt hlt)
      exact ⟨(if_neg hne).trans hnone, hcell⟩
  have hnext : t.nextId = s.nextId := hpeers.same Store.nextId fun _ => rfl
  refine ⟨congrArg (fun id => Except.ok (make id)) hnext.symm, nodes', ⟨?_, ?_, ?_, ?_⟩, ?_⟩
  · exact hshown s rfl hpeers.left
  · exact hshown t hnext hpeers.right
  · show { s with nextId := s.nextId + 1, cells := [] } = { t with nextId := t.nextId + 1, cells := [] }
    exact congrArg (fun u : Store => { u with nextId := u.nextId + 1 }) hpeers.alike.outside
  · exact hpeers.alike.cells
  · refine List.forall_mem_append.mpr ⟨List.forall_mem_singleton.mpr ?_, hplaced'⟩
    exact hmake nodes' hplaced' _ (if_pos rfl)

/-- The parts of sources at their place are at theirs. -/
theorem placed_flattenAll {nodes : NodeId → Option Source} {ss : List Source}
    (h : ∀ s ∈ ss, s.Placed nodes) : ∀ s ∈ Source.flattenAll ss, s.Placed nodes := by
  intro s hs
  obtain ⟨t, ht, hst⟩ := List.mem_flatMap.mp hs
  have hplaced := h t ht
  cases t with
  | joined id children =>
    cases hplaced with
    | joined hchildren => exact hchildren s hst
  | _ =>
    rw [List.mem_singleton.mp hst]
    exact hplaced

theorem joinedNode_places {children : List Source} (h : children ⊆ sources) :
    Places sources (fun x => [x]) (joinedNode children) :=
  newNode_places fun _ hplaced _ _ => .joined (placed_flattenAll fun s hs => hplaced s (h hs))

theorem keptNode_places {child : Source} (h : child ∈ sources) :
    Places sources (fun x => [x]) (keptNode child) := by
  have hnew : ∀ child ∈ sources, Places sources (fun x => [x])
      (do
        let id ← freshId
        pure (.kept id child) : Action Source) := fun child hchild =>
    newNode_places fun _ hplaced _ hid => .kept hid (hplaced child hchild)
  cases child with
  | kept id child => exact Places.pure_of_mem h
  | _ => exact hnew _ h

theorem editedNode_places {base : Source} (h : base ∈ sources) (rs : List Replacement) :
    Places sources (fun x => [x]) (editedNode base rs) := by
  unfold editedNode
  refine Places.bind (Places.of_steady
    (fun nodes hplaced => (textOf_renders (hplaced base h)).readsSame.act) fun _ => rfl) fun t => ?_
  refine Places.bind (Places.of_steady (fun _ _ => Steady.settle _ _) fun _ => rfl) fun edits => ?_
  exact newNode_places fun _ hplaced _ _ => .edited (hplaced base h)

theorem loadMapFor_steady {nodes : NodeId → Option Source} (name : Text) (v : MapValue) :
    Steady (Store.Peers nodes) (loadMapFor name v) := by
  have hload : Steady (Store.Peers nodes) (loadMap v) := by
    cases v with
    | made m => exact Steady.pure m
    | document json =>
      refine Steady.bind (Steady.settle _ _) fun loaded => Steady.bind (Steady.modify ?_) fun _ =>
        Steady.pure loaded.1
      exact fun s t hst => hst.change (f := (·.tell loaded.2)) (fun _ => rfl) (fun _ => rfl)
        fun _ => rfl
  unfold loadMapFor
  exact Steady.bind hload fun m => Steady.bind ((decodeKept_steady _).adaptExcept _) fun table =>
    Steady.bind (Steady.settle _ _) fun _ => Steady.pure m

theorem innerNode_places (name : Text) (sourceText : Option Text) (v : MapValue) :
    Places sources (fun x => [x]) (innerNode name sourceText v) := by
  cases sourceText with
  | none => exact Places.throw _
  | some t =>
    refine Places.bind (Places.of_steady (fun _ _ => loadMapFor_steady name v) fun _ => rfl)
      fun m => ?_
    exact newNode_places fun _ _ _ _ => .generated (by simp)

theorem generatedNode_places (text name : Text) (map : MapValue) (sourceText : Option Text)
    (innerMap : Option MapValue) {inputs : List (Text × Source)}
    (hinputs : inputs.map Prod.snd ⊆ sources) (withholdText : Bool) :
    Places sources (fun x => [x])
      (generatedNode text name map sourceText innerMap inputs withholdText) := by
  have hnew : ∀ (m : SourceMap) (inherits : Bool) (sources : List Source)
      (inputs : List (Text × Source)), inputs.map Prod.snd ⊆ sources →
        Places sources (fun x => [x])
          (do
            let id ← freshId
            pure (.generated id ⟨text, name, m, sourceText, withholdText, inherits⟩
              (Inputs.ofList inputs)) : Action Source) := by
    intro m inherits sources inputs hsub
    refine newNode_places fun nodes hplaced id _ => .generated fun input hinput => ?_
    exact hplaced _ (hsub (List.mem_map_of_mem (mem_of_mem_ofList hinput)))
  unfold generatedNode
  refine Places.bind (Places.of_steady (fun _ _ => loadMapFor_steady name map) fun _ => rfl)
    fun m => ?_
  cases innerMap with
  | none =>
    dsimp only
    rw [pure_bind]
    exact hnew m false _ _ hinputs
  | some v =>
    refine Places.bind (innerNode_places name sourceText v) fun inner => ?_
    rw [pure_bind]
    -- the inner node stands behind the given ones
    refine hnew m _ _ _ fun x hx => ?_
    rw [List.map_append] at hx
    rcases List.mem_append.mp hx with hx | hx
    · exact List.mem_append_right _ (hinputs hx)
    · exact List.mem_append_left _ hx

/-! ## Building -/

section

variable {defined : Definitions}

mutual

/-- **Building a source** from any plan gives the same source. -/
theorem build_places (p : Plan) {sources : List Source}
    (hdefined : ∀ name s, defined.lookup name = some s → s ∈ sources) :
    Places sources (fun x => [x]) (build defined p) := by
  cases p with
  | ref name =>
    rw [build]
    cases hs : defined.lookup name with
    | none => exact Places.throw _
    | some s => exact Places.pure_of_mem (hdefined name s hs)
  | plain t =>
    rw [build]
    exact Places.pure fun _ _ => List.forall_mem_singleton.mpr (.plain t)
  | file t name =>
    rw [build]
    exact Places.pure fun _ _ => List.forall_mem_singleton.mpr (.file t name)
  | generated t name map sourceText innerMap inputs withholdText =>
    rw [build]
    refine Places.bind (buildMap_places map hdefined) fun map => ?_
    refine Places.bind (buildInner_places innerMap hdefined) fun innerMap => ?_
    refine Places.bind (buildInputs_places inputs hdefined) fun inputs => ?_
    exact generatedNode_places t name _ sourceText innerMap (List.subset_append_left _ _) _
  | joined children =>
    rw [build]
    refine Places.bind (buildAll_places children hdefined) fun children => ?_
    exact joinedNode_places (List.subset_append_left _ _)
  | edited base rs =>
    rw [build]
    exact Places.bind (build_places base hdefined) fun base => editedNode_places List.mem_cons_self rs
  | kept child =>
    rw [build]
    exact Places.bind (build_places child hdefined) fun child => keptNode_places List.mem_cons_self

/-- The same for sources that are built one after the other. -/
theorem buildAll_places (ps : List Plan) {sources : List Source}
    (hdefined : ∀ name s, defined.lookup name = some s → s ∈ sources) :
    Places sources (fun xs => xs) (buildAll defined ps) := by
  cases ps with
  | nil =>
    rw [buildAll]
    exact Places.pure_of_subset (List.nil_subset _)
  | cons p rest =>
    rw [buildAll]
    refine Places.bind (build_places p hdefined) fun first => ?_
    refine Places.bind (buildAll_places rest fun name s hs =>
      List.mem_cons_of_mem _ (hdefined name s hs)) fun others => ?_
    exact Places.pure_of_subset cons_subset_append

/-- The same for further sources. -/
theorem buildInputs_places (ps : List (Text × Plan)) {sources : List Source}
    (hdefined : ∀ name s, defined.lookup name = some s → s ∈ sources) :
    Places sources (fun inputs => inputs.map Prod.snd) (buildInputs defined ps) := by
  cases ps with
  | nil =>
    rw [buildInputs]
    exact Places.pure_of_subset (List.nil_subset _)
  | cons p rest =>
    obtain ⟨key, p⟩ := p
    rw [buildInputs]
    refine Places.bind (build_places p hdefined) fun first => ?_
    refine Places.bind (buildInputs_places rest fun name s hs =>
      List.mem_cons_of_mem _ (hdefined name s hs)) fun others => ?_
    exact Places.pure_of_subset cons_subset_append

/-- Making a map brings in no source. -/
theorem buildMap_places (p : MapPlan) {sources : List Source}
    (hdefined : ∀ name s, defined.lookup name = some s → s ∈ sources) :
    Places sources (fun _ => []) (buildMap defined p) := by
  cases p with
  | document json =>
    rw [buildMap]
    exact Places.pure_of_subset (List.nil_subset _)
  | mapOf p options =>
    rw [buildMap]
    refine Places.bind (build_places p hdefined) fun s => ?_
    refine Places.bind (Places.of_steady
      (fun nodes hplaced => mapOf_steady (hplaced s List.mem_cons_self) options) fun _ => rfl)
      fun m => Places.pure_of_subset (List.nil_subset _)

/-- Making a map, if there is a plan for one, brings in no source. -/
theorem buildInner_places (p : Option MapPlan) {sources : List Source}
    (hdefined : ∀ name s, defined.lookup name = some s → s ∈ sources) :
    Places sources (fun _ => []) (buildInner defined p) := by
  cases p with
  | none =>
    rw [buildInner]
    exact Places.pure_of_subset (List.nil_subset _)
  | some p =>
    rw [buildInner]
    exact buildMap_places p hdefined

end

end

end Provenance.Session
