/-
# Stores that differ in remembered texts

Two stores with right texts in their cells that remember the same otherwise cannot be told apart by
asking for results: every action has the same outcome in both, and leaves two such stores.  Only what
shows the memory itself, which names the results in a cell, can tell them apart.

The main facts:

* `contentHashOf_readsSame` : content hashes;
* `walk_steady`, `compose_steady` : composing;
* `mapOf_steady`, `textAndMapOf_steady`, `positionsOf_steady` : source maps and the origins they give.
-/
import Provenance.Proofs.Session.Agree
import Provenance.Proofs.Session.Shown
import Provenance.Session.Maps

namespace Provenance

variable {nodes : NodeId → Option Source}

/-! ## Cells -/

namespace Slot

variable {α : Type}

/-- A slot has nothing to do with the texts in a cell. -/
structure Apart (slot : Slot α) : Prop where
  get : ∀ {c d : Cell}, c.others = d.others → slot.get c = slot.get d
  put : ∀ {c d : Cell} (v : α), c.others = d.others → (slot.put v c).others = (slot.put v d).others
  shows : ∀ {s : Source} {c : Cell} (v : α), c.Shows s → (slot.put v c).Shows s

theorem contentHash_apart : Slot.contentHash.Apart where
  get h := congrArg Prod.fst h
  put v h := congrArg (Prod.mk (some v)) (congrArg Prod.snd h)
  shows _ h := ⟨h.text, h.size, h.buffer⟩

theorem composed_apart : Slot.composed.Apart where
  get h := congrArg (·.2.1) h
  put v h := congrArg (fun o => (o.1, some v, o.2.2)) h
  shows _ h := ⟨h.text, h.size, h.buffer⟩

theorem map_apart (columns : Bool) : (Slot.map columns).Apart where
  get h := congrArg (·.2.2.lookup columns) h
  put v h := congrArg (fun o => (o.1, o.2.1, Assoc.insert columns v o.2.2)) h
  shows _ h := ⟨h.text, h.size, h.buffer⟩

end Slot

/-! ## Stores -/

namespace Store

/-- Two stores have right texts in the cells of some nodes, and remember the same otherwise. -/
structure Peers (nodes : NodeId → Option Source) (s t : Store) : Prop where
  left : s.Shown nodes
  right : t.Shown nodes
  alike : s.Alike t

namespace Peers

variable {s t : Store}

/-- What has nothing to do with cells may be changed. -/
theorem change (h : s.Peers nodes t) {f : Store → Store} (hcells : ∀ s, (f s).cells = s.cells)
    (hnext : ∀ s, (f s).nextId = s.nextId)
    (houtside : ∀ s, { f s with cells := [] } = f { s with cells := [] }) :
    (f s).Peers nodes (f t) := by
  refine ⟨h.left.of_cells_eq (hcells s) (Nat.le_of_eq (hnext s).symm),
    h.right.of_cells_eq (hcells t) (Nat.le_of_eq (hnext t).symm), ?_, fun id => ?_⟩
  · rw [houtside, houtside, h.alike.outside]
  · unfold Store.cell
    rw [hcells, hcells]
    exact h.alike.cells id

/-- A result may be put into a slot that has nothing to do with texts. -/
theorem updateCell (h : s.Peers nodes t) {α : Type} {slot : Slot α} (hslot : slot.Apart)
    {id : NodeId} {child : Source} (hnode : nodes id = some (.kept id child)) (v : α) :
    (s.updateCell id (slot.put v)).Peers nodes (t.updateCell id (slot.put v)) := by
  refine ⟨h.left.updateCell hnode (hslot.shows v), h.right.updateCell hnode (hslot.shows v),
    h.alike.outside, fun other => ?_⟩
  rw [cell_updateCell, cell_updateCell]
  split
  · exact hslot.put v (h.alike.cells id)
  · exact h.alike.cells other

/-- What has nothing to do with cells is the same. -/
theorem same (h : s.Peers nodes t) {α : Type} (f : Store → α)
    (hf : ∀ s, f { s with cells := [] } = f s) : f t = f s := by
  rw [← hf t, ← hf s, h.alike.outside]

end Peers

end Store

namespace Session

/-! ## Hashing and decoding -/

section

variable {α : Type}

/-- A value of the text is the same in both. -/
theorem Renders.readsSame {r : Reader α} {v : α} (h : Renders nodes r v) :
    ReadsSame (Store.Peers nodes) r := by
  intro s t hst
  obtain ⟨hvalue, hleft, halike⟩ := h s hst.left
  obtain ⟨hvalue', hright, halike'⟩ := h t hst.right
  exact ⟨hvalue.trans hvalue'.symm, hleft, hright,
    (halike.symm.trans hst.alike).trans halike'⟩

/-- A result that may be in a slot that has nothing to do with texts. -/
theorem remember_readsSame {slot : Slot α} (hslot : slot.Apart) {id : NodeId} {child : Source}
    (hnode : nodes id = some (.kept id child)) {r : Reader α} (hr : ReadsSame (Store.Peers nodes) r) :
    ReadsSame (Store.Peers nodes) (remember slot id r) := by
  intro s t hst
  have hsame := hslot.get (hst.alike.cells id)
  cases hfound : slot.get (t.cell id) with
  | some v =>
    rw [remember_of_filled (hsame.trans hfound), remember_of_filled hfound]
    exact ⟨rfl, hst⟩
  | none =>
    obtain ⟨hvalue, hstores⟩ := hr s t hst
    rw [remember_of_empty (hsame.trans hfound), remember_of_empty hfound, hvalue]
    exact ⟨rfl, hstores.updateCell hslot hnode _⟩

end

theorem hashFields_readsSame (fields : List Text) :
    ReadsSame (Store.Peers nodes) (hashFields fields) := fun _ _ hst =>
  ⟨rfl, hst.change (f := fun s => { s with hashed := fields :: s.hashed }) (fun _ => rfl)
    (fun _ => rfl) fun _ => rfl⟩

/-- The decoding of a mappings text, from the cache or not. -/
theorem decodeKept_steady (t : Text) : Steady (Store.Peers nodes) (decodeKept t) := by
  refine Steady.bind (hashFields_readsSame [t]).act fun key => ?_
  refine Steady.fetch (fun _ _ hst => hst.same Store.decodeCache fun _ => rfl)
    (fun _ _ c hst => ?_) (Steady.settle _ _)
  exact hst.change (f := fun s => { s with decodeCache := c }) (fun _ => rfl) (fun _ => rfl)
    fun _ => rfl

/-- The content hashes of some sources, if each of them is the same. -/
theorem contentHashesOf_readsSame {ss : List Source}
    (h : ∀ s ∈ ss, ReadsSame (Store.Peers nodes) (contentHashOf s)) :
    ReadsSame (Store.Peers nodes) (contentHashesOf ss) := by
  induction ss with
  | nil =>
    rw [contentHashesOf]
    exact ReadsSame.pure []
  | cons s rest ih =>
    obtain ⟨hs, hrest⟩ := List.forall_mem_cons.mp h
    rw [contentHashesOf]
    exact ReadsSame.bind hs fun first => ReadsSame.bind (ih hrest) fun others => ReadsSame.pure _

/-- The content hashes of further sources that are listed, if each of them is the same. -/
theorem inputHashes_readsSame (node : GeneratedText) {inputs : List (Text × Source)}
    (h : ∀ input ∈ inputs, ReadsSame (Store.Peers nodes) (contentHashOf input.2)) :
    ReadsSame (Store.Peers nodes) (inputHashes node inputs) := by
  induction inputs with
  | nil =>
    rw [inputHashes]
    exact ReadsSame.pure []
  | cons input rest ih =>
    obtain ⟨key, s⟩ := input
    obtain ⟨hs, hrest⟩ := List.forall_mem_cons.mp h
    rw [inputHashes]
    split
    · exact ReadsSame.bind hs fun first => ReadsSame.bind (ih hrest) fun others => ReadsSame.pure _
    · exact ih hrest

/-- **Content hashes** are the same. -/
theorem contentHashOf_readsSame {s : Source} (h : s.Placed nodes) :
    ReadsSame (Store.Peers nodes) (contentHashOf s) := by
  induction h with
  | plain t =>
    rw [contentHashOf]
    exact hashFields_readsSame _
  | file t name =>
    rw [contentHashOf]
    exact hashFields_readsSame _
  | generated hinputs ih =>
    rw [contentHashOf]
    exact ReadsSame.bind (inputHashes_readsSame _ ih) fun hashes => hashFields_readsSame _
  | joined hchildren ih =>
    rw [contentHashOf]
    exact ReadsSame.bind (contentHashesOf_readsSame ih) fun hashes => hashFields_readsSame _
  | edited hbase ih =>
    rw [contentHashOf]
    exact ReadsSame.bind ih fun hash => hashFields_readsSame _
  | kept hnode hchild ih =>
    rw [contentHashOf]
    exact remember_readsSame Slot.contentHash_apart hnode ih

/-! ## Composing -/

/-- Two walks on stores that differ in remembered texts remember the same results. -/
structure Walk.Peers (nodes : NodeId → Option Source) (w x : Walk) : Prop where
  stores : w.store.Peers nodes x.store
  results : w.results = x.results

/-- An action on the store of a walk. -/
theorem Steady.onWalk {ε α : Type} {m : EStateM ε Store α} (h : Steady (Store.Peers nodes) m) :
    Steady (Walk.Peers nodes) (Walk.storePart.run m) :=
  Steady.run h (fun _ _ hst => hst.stores) fun _ _ _ _ hst huv => ⟨huv, hst.results⟩

/-- A change of what has nothing to do with cells. -/
theorem tell_steady (notices : List Notice) : Steady (Walk.Peers nodes) (tell notices) :=
  Steady.modify fun _ _ hst => ⟨hst.stores.change (f := (·.tell notices)) (fun _ => rfl)
    (fun _ => rfl) fun _ => rfl, hst.results⟩

section Steps

variable {limit : Number} {depth : Nat} {id : NodeId} {compute : Step Composition}

theorem once_steady (h : Steady (Walk.Peers nodes) compute) :
    Steady (Walk.Peers nodes) (once limit depth id compute) := by
  have hanew : Steady (Walk.Peers nodes) (once.anew id compute) := by
    refine Steady.bind h fun c => Steady.bind (Steady.modify fun w x hwx => ?_) fun _ =>
      Steady.pure c
    exact ⟨hwx.stores, congrArg (Assoc.insert id c) hwx.results⟩
  unfold once
  refine Steady.get_bind fun w x hwx => ⟨by rw [hwx.results], ?_⟩
  cases w.results.lookup id with
  | none => exact hanew
  | some c =>
    dsimp only
    split
    · exact Steady.pure c
    · exact hanew

theorem stored_steady {child : Source} (hnode : nodes id = some (.kept id child))
    {contentHash : Reader ContentHash} (hhash : ReadsSame (Store.Peers nodes) contentHash)
    (h : Steady (Walk.Peers nodes) compute) :
    Steady (Walk.Peers nodes) (stored id contentHash compute) := by
  have hfetch : ∀ key, Steady (Walk.Peers nodes) (Cache.fetch Walk.composePart key compute) := by
    intro key
    refine Steady.fetch (fun _ _ hwx => hwx.stores.same Store.composeCache fun _ => rfl)
      (fun _ _ c hwx => ?_) h
    exact ⟨hwx.stores.change (f := fun s => { s with composeCache := c }) (fun _ => rfl)
      (fun _ => rfl) fun _ => rfl, hwx.results⟩
  have hremember := remember_readsSame Slot.contentHash_apart hnode hhash
  unfold stored
  refine Steady.get_bind fun w x hwx => ⟨?_, ?_⟩
  · have hcell : (w.store.cell id).composed = (x.store.cell id).composed :=
      Slot.composed_apart.get (hwx.stores.alike.cells id)
    rw [hcell]
  · cases (w.store.cell id).composed with
    | some c => exact Steady.pure c
    | none =>
      refine Steady.bind hremember.act.onWalk fun key => Steady.bind (hfetch key) fun c => ?_
      refine Steady.bind (Steady.modify fun w x hwx => ?_) fun _ => Steady.pure c
      exact ⟨hwx.stores.updateCell Slot.composed_apart hnode c, hwx.results⟩

theorem finishGenerated_steady (node : GeneratedText) (results : List (Option Composition)) :
    Steady (Walk.Peers nodes) (finishGenerated node results) := by
  unfold finishGenerated
  refine Steady.bind ((decodeKept_steady _).onWalk.adaptExcept _) fun table => ?_
  refine Steady.get_bind fun w x hwx => ⟨by rw [hwx.stores.same Store.tracing fun _ => rfl], ?_⟩
  split
  · exact Steady.bind (tell_steady _) fun _ => Steady.settle _ _
  · exact Steady.settle _ _

/-- Composing some sources, if composing each of them is the same. -/
theorem walkAll_steady {ss : List Source}
    (h : ∀ s ∈ ss, Steady (Walk.Peers nodes) (walk limit depth s)) :
    Steady (Walk.Peers nodes) (walkAll limit depth ss) := by
  induction ss with
  | nil =>
    rw [walkAll]
    exact Steady.pure []
  | cons s rest ih =>
    obtain ⟨hs, hrest⟩ := List.forall_mem_cons.mp h
    rw [walkAll]
    exact Steady.bind hs fun first => Steady.bind (ih hrest) fun others => Steady.pure _

/-- Composing the further source under a key, if composing each of them is the same. -/
theorem walkInput_steady {key : Text} {inputs : List (Text × Source)}
    (h : ∀ input ∈ inputs, Steady (Walk.Peers nodes) (walk limit depth input.2)) :
    Steady (Walk.Peers nodes) (walkInput limit depth key inputs) := by
  induction inputs with
  | nil =>
    rw [walkInput]
    exact Steady.throw _
  | cons input rest ih =>
    obtain ⟨k, s⟩ := input
    obtain ⟨hs, hrest⟩ := List.forall_mem_cons.mp h
    rw [walkInput]
    split
    · exact hs
    · exact ih hrest

end Steps

/-- **Composing a source by a walk** is the same. -/
theorem walk_steady {limit : Number} {s : Source} (h : s.Placed nodes) (depth : Nat) :
    Steady (Walk.Peers nodes) (walk limit depth s) := by
  induction h generalizing depth with
  | plain t =>
    rw [walk]
    exact Steady.pure _
  | file t name =>
    rw [walk]
    exact Steady.pure _
  | @generated id node inputs hinputs ih =>
    rw [walk]
    refine once_steady (Steady.bind (tell_steady _) fun _ => ?_)
    refine Steady.bind (Steady.mapM fun key _ => ?_) fun results => finishGenerated_steady node _
    cases key with
    | none => exact Steady.pure none
    | some key =>
      dsimp only
      split
      · exact Steady.throw _
      · exact Steady.bind (walkInput_steady fun input hinput => ih input hinput (depth + 1)) fun c =>
          Steady.pure (some c)
  | joined hchildren ih =>
    rw [walk]
    exact once_steady (Steady.bind (walkAll_steady fun s hs => ih s hs depth) fun _ => Steady.pure _)
  | edited hbase ih =>
    rw [walk]
    exact once_steady (Steady.bind (ih depth) fun _ => Steady.pure _)
  | kept hnode hchild ih =>
    rw [walk]
    refine once_steady (Steady.bind
      (stored_steady hnode (contentHashOf_readsSame hchild) (ih depth)) fun c => ?_)
    split
    · exact Steady.pure c
    · exact ih depth

/-- **Composing a source** is the same. -/
theorem compose_steady (limit : Number) {s : Source} (h : s.Placed nodes) :
    Steady (Store.Peers nodes) (compose limit s) := by
  have houtcome : ∀ store, outcome (compose limit s) store =
      ((outcome (walk limit 0 s) ⟨store, []⟩).1, (outcome (walk limit 0 s) ⟨store, []⟩).2.store) := by
    intro store
    unfold outcome compose
    cases walk limit 0 s ⟨store, []⟩ <;> rfl
  intro store store' hstores
  obtain ⟨hresult, hwalks⟩ := walk_steady h 0 ⟨store, []⟩ ⟨store', []⟩ ⟨hstores, rfl⟩
  rw [houtcome, houtcome]
  exact ⟨hresult, hwalks.stores⟩

/-! ## Source maps -/

theorem composedOf_steady {s : Source} (h : s.Placed nodes) (options : OutputOptions) :
    Steady (Store.Peers nodes) (composedOf s options) :=
  Steady.adaptExcept (compose_steady options.limit h) Fault.compose

theorem keptMapOf_steady {id : NodeId} {child : Source} (hnode : nodes id = some (.kept id child))
    (hchild : child.Placed nodes) (options : OutputOptions) :
    Steady (Store.Peers nodes) (keptMapOf id child options) := by
  unfold keptMapOf
  refine Steady.bind (composedOf_steady (.kept hnode hchild) options) fun c => ?_
  refine Steady.get_bind fun s t hst => ⟨?_, ?_⟩
  · rw [(Slot.map_apart options.columns).get (hst.alike.cells id)]
  · cases (Slot.map options.columns).get (s.cell id) with
    | some m => exact Steady.pure _
    | none =>
      refine Steady.bind (Steady.settle _ _) fun m => Steady.bind (Steady.modify ?_) fun _ =>
        Steady.pure _
      exact fun s t hst => hst.updateCell (Slot.map_apart options.columns) hnode m

/-- **The source map of a source** is the same. -/
theorem mapOf_steady {s : Source} (h : s.Placed nodes) (options : OutputOptions) :
    Steady (Store.Peers nodes) (mapOf s options) := by
  cases s with
  | kept id child =>
    cases h with
    | kept hnode hchild => exact keptMapOf_steady hnode hchild options
  | _ => exact Steady.bind (composedOf_steady h options) fun c => Steady.settle _ _

/-- **The text of a source and its source map** are the same. -/
theorem textAndMapOf_steady {s : Source} (h : s.Placed nodes) (options : OutputOptions) :
    Steady (Store.Peers nodes) (textAndMapOf s options) := by
  cases s with
  | kept id child =>
    cases h with
    | kept hnode hchild =>
      exact Steady.bind (keptMapOf_steady hnode hchild options) fun m =>
        Steady.bind (textOf_renders (.kept hnode hchild)).readsSame.act fun t => Steady.pure _
  | _ =>
    exact Steady.bind (composedOf_steady h options) fun c =>
      Steady.bind (Steady.settle _ _) fun m => Steady.pure _

theorem positionsIn_steady (m : SourceMap) (places : List (Number × Number)) :
    Steady (Store.Peers nodes) (positionsIn m places) := by
  induction places with
  | nil => exact Steady.pure []
  | cons place rest ih =>
    rw [positionsIn]
    exact Steady.bind ((decodeKept_steady _).adaptExcept _) fun table =>
      Steady.bind ih fun others => Steady.pure _

/-- **The origins of some positions of a source** are the same. -/
theorem positionsOf_steady {s : Source} (h : s.Placed nodes) (options : OutputOptions)
    (places : List (Number × Number)) :
    Steady (Store.Peers nodes) (positionsOf s options places) := by
  unfold positionsOf
  refine Steady.bind (mapOf_steady h options) fun m => ?_
  cases m with
  | none => exact Steady.pure none
  | some m => exact Steady.bind (positionsIn_steady m places) fun _ => Steady.pure _

end Session

end Provenance
