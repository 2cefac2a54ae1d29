/-
# Building with faithful memory

Building a source keeps the memory faithful and leaves every source that there is as it is: a new node
gets an identity that stands for no node yet, and whose cell is empty.

What building keeps is shown by one induction over plans, for everything that may be said of the sources
in play: it is enough that each way of making a node keeps it.

The main facts:

* `newNode_builds` : a new node is at the place of its identity;
* `build_brings` : building keeps what every way of making a node keeps;
* `build_builds` : a source that is built from a plan is held.
-/
import Provenance.Proofs.Session.Formed
import Provenance.Proofs.Session.Maps

namespace Provenance.Session

variable {hashed : List (List Text)}

/-! ## Sources in play -/

/-- A store serves some nodes, which some sources are made of. -/
def Backed (hashed : List (List Text)) (sources : List Source) (store : Store) : Prop :=
  ∃ nodes, store.Serves hashed nodes ∧ ∀ s ∈ sources, s.Held nodes

theorem Backed.subset {sources sources' : List Source} {store : Store}
    (h : Backed hashed sources store) (hsub : sources' ⊆ sources) : Backed hashed sources' store := by
  obtain ⟨nodes, hserves, hheld⟩ := h
  exact ⟨nodes, hserves, fun s hs => hheld s (hsub hs)⟩

/-- What is said of some sources is said of fewer of them, too. -/
def Hereditary (S : List Source → Store → Prop) : Prop :=
  ∀ sources sources' store, S sources store → sources' ⊆ sources → S sources' store

theorem backed_hereditary : Hereditary (Backed hashed) := fun _ _ _ => Backed.subset

/-- An action keeps what is said of the sources in play, and says it of those in its result as well. -/
def Brings {ε α : Type} (S : List Source → Store → Prop) (sources : List Source)
    (parts : α → List Source) (m : EStateM ε Store α) : Prop :=
  Meets (S sources) m fun r store =>
    match r with
    | .ok v => S (parts v ++ sources) store
    | .error _ => S sources store

namespace Brings

variable {ε α β : Type} {S : List Source → Store → Prop} {sources : List Source}
  {parts : α → List Source} {m : EStateM ε Store α}

protected theorem pure {v : α} (h : ∀ store, S sources store → S (parts v ++ sources) store) :
    Brings S sources parts (pure v : EStateM ε Store α) := Meets.pure h

/-- A result that is made of sources in play. -/
theorem pure_of_subset (hsubset : Hereditary S) {v : α} (h : parts v ⊆ sources) :
    Brings S sources parts (pure v : EStateM ε Store α) :=
  Brings.pure fun _ hs => hsubset _ _ _ hs (List.append_subset.mpr ⟨h, List.Subset.refl _⟩)

protected theorem throw (e : ε) : Brings S sources parts (throw e : EStateM ε Store α) :=
  Meets.throw fun _ hs => hs

/-- One action after another: the second finds the sources of the first in play, and what is known of
every value of the first. -/
theorem bind_of (hsubset : Hereditary S) {A : α → Prop} {f : α → EStateM ε Store β}
    {parts' : β → List Source} (hm : Brings S sources parts m)
    (hvalue : ∀ s v t, m s = .ok v t → A v)
    (hf : ∀ v, A v → Brings S (parts v ++ sources) parts' (f v)) :
    Brings S sources parts' (m >>= f) := by
  have hknown : Meets (S sources) m fun r store =>
      (match r with
        | .ok v => S (parts v ++ sources) store
        | .error _ => S sources store) ∧ ∀ v, r = .ok v → A v := by
    intro s hs
    obtain ⟨hlog, hkept⟩ := hm s hs
    refine ⟨hlog, hkept, fun v hv => ?_⟩
    unfold outcome at hv
    cases hr : m s with
    | ok w t =>
      rw [hr] at hv
      obtain rfl := Except.ok.inj hv
      exact hvalue s _ t hr
    | error e t =>
      rw [hr] at hv
      cases hv
  refine Meets.bind hknown (fun v => ?_) fun _ _ he => he.1
  rintro s ⟨hs, hv⟩
  obtain ⟨hlog, hr⟩ := hf v (hv v rfl) s hs
  refine ⟨hlog, ?_⟩
  generalize outcome (f v) s = out at hr
  obtain ⟨r, t⟩ := out
  cases r with
  | ok w =>
    apply hsubset _ _ _ hr
    intro s hs
    rcases List.mem_append.mp hs with hs | hs
    · exact List.mem_append_left _ hs
    · exact List.mem_append_right _ (List.mem_append_right _ hs)
  | error e => exact hsubset _ _ _ hr (List.subset_append_right _ _)

/-- The same where nothing need be known of the values of the first. -/
protected theorem bind (hsubset : Hereditary S) {f : α → EStateM ε Store β}
    {parts' : β → List Source} (hm : Brings S sources parts m)
    (hf : ∀ v, Brings S (parts v ++ sources) parts' (f v)) : Brings S sources parts' (m >>= f) :=
  bind_of hsubset (A := fun _ => True) hm (fun _ _ _ _ => trivial) fun v _ => hf v

end Brings

/-- An action leaves the sources in play as they are, and brings in those in its result. -/
def Builds {ε α : Type} (hashed : List (List Text)) (sources : List Source) (parts : α → List Source)
    (m : EStateM ε Store α) : Prop :=
  Brings (Backed hashed) sources parts m

namespace Builds

variable {ε ε' α β : Type} {sources : List Source} {parts : α → List Source} {m : EStateM ε Store α}

protected theorem pure {v : α}
    (h : ∀ nodes, (∀ s ∈ sources, s.Held nodes) → ∀ s ∈ parts v, s.Held nodes) :
    Builds hashed sources parts (pure v : EStateM ε Store α) := by
  apply Brings.pure
  rintro store ⟨nodes, hserves, hheld⟩
  refine ⟨nodes, hserves, fun s hs => ?_⟩
  rcases List.mem_append.mp hs with hs | hs
  · exact h nodes hheld s hs
  · exact hheld s hs

protected theorem bind {f : α → EStateM ε Store β} {parts' : β → List Source}
    (hm : Builds hashed sources parts m)
    (hf : ∀ v, Builds hashed (parts v ++ sources) parts' (f v)) :
    Builds hashed sources parts' (m >>= f) := Brings.bind backed_hereditary hm hf

/-- An action about sources in play that makes none. -/
theorem of_gives {Q : Except ε α → Prop}
    (h : ∀ nodes, (∀ s ∈ sources, s.Held nodes) → Gives hashed (Store.Serves hashed nodes) m Q)
    (hparts : ∀ v, parts v = []) : Builds hashed sources parts m := by
  rintro store ⟨nodes, hserves, hheld⟩
  obtain ⟨hlog, hserves', -⟩ := h nodes hheld store hserves
  have hbacked : Backed hashed sources (outcome m store).2 := ⟨nodes, hserves', hheld⟩
  refine ⟨hlog, ?_⟩
  cases (outcome m store).1 with
  | ok v =>
    dsimp only
    rw [hparts]
    exact hbacked
  | error e => exact hbacked

end Builds

/-! ## New nodes -/

/-- **A new node is at the place of its identity**, and all others stay at theirs. -/
theorem newNode_builds {sources : List Source} {make : NodeId → Source}
    (hmake : ∀ nodes, (∀ s ∈ sources, s.Held nodes) → ∀ id, nodes id = some (make id) →
      (make id).Held nodes) :
    Builds hashed sources (fun s => [s])
      (do
        let id ← freshId
        pure (make id)) := by
  rintro store ⟨nodes, hserves, hheld⟩
  obtain ⟨hnone, hcell⟩ := hserves.unused store.nextId (Nat.le_refl _)
  -- the identity stood for no node, so the sources there are do not notice that it does now
  let nodes' : NodeId → Option Source := fun id =>
    if id = store.nextId then some (make id) else nodes id
  have hold : ∀ id t, nodes id = some t → nodes' id = some t := by
    intro id t ht
    have hne : id ≠ store.nextId := by
      rintro rfl
      rw [hnone] at ht
      cases ht
    exact (if_neg hne).trans ht
  have hnew : nodes' store.nextId = some (make store.nextId) := if_pos rfl
  have hheld' : ∀ s ∈ sources, s.Held nodes' := fun s hs => (hheld s hs).mono hold
  have hserves' : ({ store with nextId := store.nextId + 1 } : Store).Serves hashed nodes' := by
    constructor
    · intro id hle
      have hne : id ≠ store.nextId := Nat.ne_of_gt hle
      obtain ⟨hid, hidcell⟩ := hserves.unused id (Nat.le_of_succ_le hle)
      exact ⟨(if_neg hne).trans hid, hidcell⟩
    · intro hsub
      have hf := hserves.faithful hsub
      refine ⟨fun id child hid => ?_, hf.decoded, hf.composed⟩
      show (store.cell id).Faithful hashed child
      -- the cell of the new node is empty
      by_cases heq : id = store.nextId
      · rw [heq, hcell]
        exact Cell.faithful_empty hashed child
      · exact hf.cell id child ((if_neg heq).symm.trans hid)
  refine ⟨fun _ h => h, nodes', hserves', fun s hs => ?_⟩
  rcases List.mem_append.mp hs with hs | hs
  · rw [List.mem_singleton.mp hs]
    exact hmake nodes' hheld' _ hnew
  · exact hheld' s hs

/-- The parts of held sources are held. -/
theorem held_flattenAll {nodes : NodeId → Option Source} {ss : List Source}
    (h : ∀ s ∈ ss, s.Held nodes) : ∀ s ∈ Source.flattenAll ss, s.Held nodes := by
  intro s hs
  obtain ⟨t, ht, hst⟩ := List.mem_flatMap.mp hs
  have hheld := h t ht
  cases t with
  | joined id children =>
    cases hheld with
    | joined _ hchildren => exact hchildren s hst
  | _ =>
    rw [List.mem_singleton.mp hst]
    exact hheld

theorem joinedNode_builds {sources children : List Source} (h : children ⊆ sources) :
    Builds hashed sources (fun s => [s]) (joinedNode children) :=
  newNode_builds fun _ hheld _ hid => .joined hid (held_flattenAll fun s hs => hheld s (h hs))

theorem keptNode_builds {sources : List Source} {child : Source} (h : child ∈ sources) :
    Builds hashed sources (fun s => [s]) (keptNode child) := by
  have hnew : ∀ child ∈ sources, Builds hashed sources (fun s => [s])
      (do
        let id ← freshId
        pure (.kept id child)) := fun child hchild =>
    newNode_builds fun _ hheld _ hid => .kept hid (hheld child hchild)
  cases child with
  | kept id child =>
    apply Builds.pure
    intro nodes hheld s hs
    rw [List.mem_singleton.mp hs]
    exact hheld _ h
  | _ => exact hnew _ h

theorem editedNode_builds {sources : List Source} {base : Source} (h : base ∈ sources)
    {rs : List Replacement} (hrs : ∀ r ∈ rs, r.Formed) :
    Builds hashed sources (fun s => [s]) (editedNode base rs) := by
  unfold editedNode
  refine Builds.bind (Builds.of_gives (fun nodes hheld => (textOf_reads (hheld base h)).act)
    fun _ => rfl) fun t => ?_
  cases hcheck : checkReplacements t rs with
  | error e => exact Brings.throw _
  | ok edits =>
    have hedits := formed_of_checkReplacements hcheck hrs
    exact newNode_builds fun _ hheld _ hid => .edited hid hedits (hheld base h)

/-! ## Maps of new nodes -/

theorem loadMap_gives {nodes : NodeId → Option Source} (v : MapValue) :
    Gives hashed (Store.Serves hashed nodes) (loadMap v) fun _ => True := by
  cases v with
  | made m => exact Gives.pure trivial
  | document json =>
    apply Gives.follow (Yields.settle _ _)
    intro loaded
    obtain ⟨m, notices⟩ := loaded
    rintro store hstore
    refine ⟨fun _ h => h, ?_, fun _ => trivial⟩
    exact hstore.of_eq rfl rfl (List.Subset.refl _) (fun _ _ h => h) fun _ _ h => h

/-- A map, if it is fit for the text called `name`, without memory. -/
def checkedFor (name : Text) (m : SourceMap) : Except Fault SourceMap := do
  let table ← (MappingTable.decode m.mappings).mapError Fault.decode
  (checkEntries name m.sources.length m.names.length table).mapError Fault.construction
  .ok m

/-- A map is fit for a text if it decodes and passes the check of its entries. -/
theorem checkedFor_eq_ok_iff {name : Text} {m m' : SourceMap} :
    checkedFor name m = .ok m' ↔ m' = m ∧ ∃ table, MappingTable.decode m.mappings = .ok table ∧
      checkEntries name m.sources.length m.names.length table = .ok () := by
  simp only [checkedFor, bind_eq_ok_iff, mapError_eq_ok_iff, Except.ok.injEq]
  constructor
  · rintro ⟨table, htable, u, hcheck, rfl⟩
    exact ⟨rfl, table, htable, hcheck⟩
  · rintro ⟨rfl, table, htable, hcheck⟩
    exact ⟨table, htable, (), hcheck, rfl⟩

/-- A map that has been made is checked. -/
theorem loadMapFor_made_yields (hfree : ContentHash.CollisionFree hashed)
    {nodes : NodeId → Option Source} (name : Text) (m : SourceMap) :
    Yields hashed (Store.Serves hashed nodes) (loadMapFor name (.made m)) (checkedFor name m) := by
  have hdecode : Yields hashed (Store.Serves hashed nodes) (decodeKept m.mappings)
      (MappingTable.decode m.mappings) := decodeKept_yields hfree m.mappings
  unfold loadMapFor
  rw [show loadMap (.made m) = pure m from rfl, pure_bind]
  exact Yields.bind (hdecode.adaptExcept Fault.decode) fun table =>
    Yields.bind (Yields.settle _ _) fun _ => Yields.pure m

/-- A map that is loaded for a text passed the check of its entries. -/
theorem loadMapFor_gives (hfree : ContentHash.CollisionFree hashed) {nodes : NodeId → Option Source}
    (name : Text) (v : MapValue) :
    Gives hashed (Store.Serves hashed nodes) (loadMapFor name v) fun r => ∀ m, r = .ok m →
      ∃ table, MappingTable.decode m.mappings = .ok table ∧
        checkEntries name m.sources.length m.names.length table = .ok () := by
  rw [show loadMapFor name v = loadMap v >>= fun m => loadMapFor name (.made m) from rfl]
  refine Gives.bind (loadMap_gives v) (fun m => Gives.assuming ?_) fun e _ m h => by cases h
  refine Gives.imp (loadMapFor_made_yields hfree name m) ?_
  rintro r rfl - m' hm'
  obtain ⟨rfl, hchecked⟩ := checkedFor_eq_ok_iff.mp hm'
  exact hchecked

variable {sources : List Source}

theorem innerNode_builds (hfree : ContentHash.CollisionFree hashed) {name : Text}
    (hname : name.wellFormed = true) {sourceText : Option Text}
    (hsourceText : ∀ t ∈ sourceText, t.wellFormed = true) (v : MapValue) :
    Builds hashed sources (fun s => [s]) (innerNode name sourceText v) := by
  cases sourceText with
  | none => exact Brings.throw _
  | some t =>
    refine Builds.bind (Builds.of_gives (fun _ _ => loadMapFor_gives hfree name v) fun _ => rfl)
      fun m => ?_
    refine newNode_builds fun _ _ _ hid => .generated hid ⟨?_, by simp⟩ (by simp)
    exact ⟨hsourceText t rfl, hname, by simp, fun h => by cases h⟩

theorem generatedNode_builds (hfree : ContentHash.CollisionFree hashed) {text name : Text}
    (htext : text.wellFormed = true) (hname : name.wellFormed = true) (map : MapValue)
    {sourceText : Option Text} (hsourceText : ∀ t ∈ sourceText, t.wellFormed = true)
    (innerMap : Option MapValue) {inputs : List (Text × Source)}
    (hkeys : ∀ input ∈ inputs, input.1.wellFormed = true)
    (hinputs : inputs.map Prod.snd ⊆ sources) (withholdText : Bool) :
    Builds hashed sources (fun s => [s])
      (generatedNode text name map sourceText innerMap inputs withholdText) := by
  have hnew : ∀ (m : SourceMap) (inherits : Bool),
      (inherits = true → name = Inputs.prototypeKey ∧ sourceText.isSome = true) →
        ∀ (sources : List Source) (inputs : List (Text × Source)),
          (∀ input ∈ inputs, input.1.wellFormed = true) → inputs.map Prod.snd ⊆ sources →
            Builds hashed sources (fun s => [s])
              (do
                let id ← freshId
                pure (.generated id ⟨text, name, m, sourceText, withholdText, inherits⟩
                  (Inputs.ofList inputs))) := by
    intro m inherits hown sources inputs hkeys hsub
    refine newNode_builds fun nodes hheld id hid => .generated hid ⟨⟨htext, hname, ?_, hown⟩, ?_⟩ ?_
    · exact hsourceText
    · exact fun input hmem => hkeys input (mem_of_mem_ofList hmem)
    · exact fun input hmem => hheld _ (hsub (List.mem_map_of_mem (mem_of_mem_ofList hmem)))
  unfold generatedNode
  refine Builds.bind (Builds.of_gives (fun _ _ => loadMapFor_gives hfree name map) fun _ => rfl)
    fun m => ?_
  cases innerMap with
  | none =>
    dsimp only
    rw [pure_bind]
    exact hnew m false (fun h => by cases h) _ _ hkeys hinputs
  | some v =>
    cases sourceText with
    | none => exact Brings.throw _
    | some source =>
      apply Builds.bind (innerNode_builds hfree hname hsourceText v)
      intro inner
      rw [pure_bind]
      -- the inner node stands behind the given ones, under the name of the text
      refine hnew m _ (fun h => ?_) _ _ ?_ fun s hs => ?_
      · exact ⟨of_decide_eq_true (Bool.and_eq_true_iff.mp h).1, rfl⟩
      · exact List.forall_mem_append.mpr ⟨hkeys, List.forall_mem_singleton.mpr hname⟩
      · rw [List.map_append] at hs
        rcases List.mem_append.mp hs with hs | hs
        · exact List.mem_append_right _ (hinputs hs)
        · exact List.mem_append_left _ hs

/-! ## Building -/

/-- What is said of the sources in play stands, whichever way a node is made. -/
structure Upheld (hashed : List (List Text)) (S : List Source → Store → Prop) : Prop where
  hereditary : Hereditary S
  /-- An action that makes no node may only change what is remembered. -/
  silent : ∀ {ε α : Type} {sources : List Source} {parts : α → List Source} {m : EStateM ε Store α}
    {Q : Except ε α → Prop},
    (∀ nodes, (∀ s ∈ sources, s.Held nodes) → Gives hashed (Store.Serves hashed nodes) m Q) →
      (∀ v, parts v = []) → Brings S sources parts m
  plain : ∀ {t : Text} {sources store}, t.wellFormed = true → S sources store →
    S (.plain t :: sources) store
  file : ∀ {t name : Text} {sources store}, t.wellFormed = true → name.wellFormed = true →
    S sources store → S (.file t name :: sources) store
  joined : ∀ {sources children : List Source}, children ⊆ sources →
    Brings S sources (fun s => [s]) (joinedNode children)
  kept : ∀ {sources : List Source} {child : Source}, child ∈ sources →
    Brings S sources (fun s => [s]) (keptNode child)
  edited : ∀ {sources : List Source} {base : Source} {rs : List Replacement}, base ∈ sources →
    (∀ r ∈ rs, r.Formed) → Brings S sources (fun s => [s]) (editedNode base rs)
  generated : ∀ {sources : List Source} {text name : Text} {map : MapValue} {sourceText : Option Text}
    {innerMap : Option MapValue} {inputs : List (Text × Source)} {withholdText : Bool},
    text.wellFormed = true → name.wellFormed = true → (∀ t ∈ sourceText, t.wellFormed = true) →
      (∀ input ∈ inputs, input.1.wellFormed = true) → inputs.map Prod.snd ⊆ sources →
        Brings S sources (fun s => [s])
          (generatedNode text name map sourceText innerMap inputs withholdText)

section

variable {S : List Source → Store → Prop} {defined : Definitions}

mutual

/-- **Building a source from a plan keeps what every way of making a node keeps.** -/
theorem build_brings (hfree : ContentHash.CollisionFree hashed) (hS : Upheld hashed S) (p : Plan)
    (hp : p.Formed) {sources : List Source}
    (hdefined : ∀ name s, defined.lookup name = some s → s ∈ sources) :
    Brings S sources (fun s => [s]) (build defined p) := by
  cases hp with
  | ref name =>
    rw [build]
    cases hs : defined.lookup name with
    | none => exact Brings.throw _
    | some s =>
      refine Brings.pure_of_subset hS.hereditary fun t ht => ?_
      rw [List.mem_singleton.mp ht]
      exact hdefined name s hs
  | plain htext =>
    rw [build]
    exact Brings.pure fun store h => hS.plain htext h
  | file htext hname =>
    rw [build]
    exact Brings.pure fun store h => hS.file htext hname h
  | @generated t name map sourceText innerMap inputs withholdText htext hname hmap hsourceText
      hinnerMap hkeys hinputs =>
    rw [build]
    apply Brings.bind hS.hereditary (buildMap_brings hfree hS map hmap hdefined)
    intro map
    apply Brings.bind hS.hereditary (buildInner_brings hfree hS innerMap hinnerMap hdefined)
    intro innerMap
    refine Brings.bind_of hS.hereditary (buildInputs_brings hfree hS inputs hinputs hdefined)
      (fun _ _ _ => keys_of_buildInputs) fun built hbuilt => ?_
    refine hS.generated htext hname hsourceText ?_ (List.subset_append_left _ _)
    intro input hinput
    obtain ⟨planned, hplanned, hkey⟩ := List.mem_map.mp (hbuilt ▸ List.mem_map_of_mem hinput)
    rw [← hkey]
    exact hkeys planned hplanned
  | @joined children hchildren =>
    rw [build]
    apply Brings.bind hS.hereditary (buildAll_brings hfree hS children hchildren hdefined)
    intro children
    exact hS.joined (List.subset_append_left _ _)
  | @edited base rs hbase hrs =>
    rw [build]
    apply Brings.bind hS.hereditary (build_brings hfree hS base hbase hdefined)
    intro base
    exact hS.edited List.mem_cons_self hrs
  | @kept child hchild =>
    rw [build]
    apply Brings.bind hS.hereditary (build_brings hfree hS child hchild hdefined)
    intro child
    exact hS.kept List.mem_cons_self

/-- The same for sources that are built one after the other. -/
theorem buildAll_brings (hfree : ContentHash.CollisionFree hashed) (hS : Upheld hashed S)
    (ps : List Plan) (hps : ∀ p ∈ ps, p.Formed) {sources : List Source}
    (hdefined : ∀ name s, defined.lookup name = some s → s ∈ sources) :
    Brings S sources (fun ss => ss) (buildAll defined ps) := by
  cases ps with
  | nil =>
    rw [buildAll]
    exact Brings.pure fun _ h => h
  | cons p rest =>
    obtain ⟨hp, hrest⟩ := List.forall_mem_cons.mp hps
    rw [buildAll]
    apply Brings.bind hS.hereditary (build_brings hfree hS p hp hdefined)
    intro first
    refine Brings.bind hS.hereditary (buildAll_brings hfree hS rest hrest fun name s hs =>
      List.mem_cons_of_mem _ (hdefined name s hs)) fun others => ?_
    exact Brings.pure_of_subset hS.hereditary cons_subset_append

/-- The same for further sources. -/
theorem buildInputs_brings (hfree : ContentHash.CollisionFree hashed) (hS : Upheld hashed S)
    (ps : List (Text × Plan)) (hps : ∀ p ∈ ps, p.2.Formed) {sources : List Source}
    (hdefined : ∀ name s, defined.lookup name = some s → s ∈ sources) :
    Brings S sources (fun inputs => inputs.map Prod.snd) (buildInputs defined ps) := by
  cases ps with
  | nil =>
    rw [buildInputs]
    exact Brings.pure fun _ h => h
  | cons p rest =>
    obtain ⟨key, p⟩ := p
    obtain ⟨hp, hrest⟩ := List.forall_mem_cons.mp hps
    rw [buildInputs]
    apply Brings.bind hS.hereditary (build_brings hfree hS p hp hdefined)
    intro first
    refine Brings.bind hS.hereditary (buildInputs_brings hfree hS rest hrest fun name s hs =>
      List.mem_cons_of_mem _ (hdefined name s hs)) fun others => ?_
    exact Brings.pure_of_subset hS.hereditary cons_subset_append

/-- Making a map brings in no source. -/
theorem buildMap_brings (hfree : ContentHash.CollisionFree hashed) (hS : Upheld hashed S) (p : MapPlan)
    (hp : p.Formed) {sources : List Source}
    (hdefined : ∀ name s, defined.lookup name = some s → s ∈ sources) :
    Brings S sources (fun _ => []) (buildMap defined p) := by
  cases hp with
  | document json =>
    rw [buildMap]
    exact Brings.pure fun _ h => h
  | @mapOf p options hplan =>
    rw [buildMap]
    apply Brings.bind hS.hereditary (build_brings hfree hS p hplan hdefined)
    intro s
    refine Brings.bind hS.hereditary (hS.silent (fun nodes hheld =>
      mapOf_attains hfree (hheld s List.mem_cons_self) options) fun _ => rfl) fun m => ?_
    exact Brings.pure fun _ h => h

/-- Making a map, if there is a plan for one, brings in no source. -/
theorem buildInner_brings (hfree : ContentHash.CollisionFree hashed) (hS : Upheld hashed S)
    (p : Option MapPlan) (hp : ∀ m ∈ p, m.Formed) {sources : List Source}
    (hdefined : ∀ name s, defined.lookup name = some s → s ∈ sources) :
    Brings S sources (fun _ => []) (buildInner defined p) := by
  cases p with
  | none =>
    rw [buildInner]
    exact Brings.pure fun _ h => h
  | some p =>
    rw [buildInner]
    exact buildMap_brings hfree hS p (hp p rfl) hdefined

end

end

/-- Every way of making a node makes one that is held, and leaves the others as they are. -/
theorem backed_upheld (hfree : ContentHash.CollisionFree hashed) : Upheld hashed (Backed hashed) where
  hereditary := backed_hereditary
  silent := Builds.of_gives
  plain htext h := by
    obtain ⟨nodes, hserves, hheld⟩ := h
    exact ⟨nodes, hserves, List.forall_mem_cons.mpr ⟨.plain htext, hheld⟩⟩
  file htext hname h := by
    obtain ⟨nodes, hserves, hheld⟩ := h
    exact ⟨nodes, hserves, List.forall_mem_cons.mpr ⟨.file ⟨htext, hname⟩, hheld⟩⟩
  joined := joinedNode_builds
  kept := keptNode_builds
  edited hbase hrs := editedNode_builds hbase hrs
  generated htext hname hsourceText hkeys hinputs :=
    generatedNode_builds hfree htext hname _ hsourceText _ hkeys hinputs _

/-- **A source that is built from a plan is held**, along with all that were there before. -/
theorem build_builds (hfree : ContentHash.CollisionFree hashed) {defined : Definitions} (p : Plan)
    (hp : p.Formed) {sources : List Source}
    (hdefined : ∀ name s, defined.lookup name = some s → s ∈ sources) :
    Builds hashed sources (fun s => [s]) (build defined p) :=
  build_brings hfree (backed_upheld hfree) p hp hdefined

end Provenance.Session
