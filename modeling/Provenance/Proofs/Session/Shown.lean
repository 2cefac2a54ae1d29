/-
# Remembered texts

A node that remembers may have its text, the number of its bytes and the bytes in its cell.  They are
worked out from the texts of the tree and from nothing that has been hashed, so they are right whatever
the texts are, and to work them out leaves everything else that is remembered as it is.

The main facts:

* `textOf_renders`, `sizeOf_renders`, `bufferOf_renders` : what a source is as text, whatever its cells
  have of it.
-/
import Provenance.Proofs.Session.Render

namespace Provenance

variable {nodes : NodeId → Option Source}

/-! ## Nodes -/

/-- Every node of a source that remembers is the one that its identity stands for. -/
inductive Source.Placed (nodes : NodeId → Option Source) : Source → Prop where
  | plain (t : Text) : Placed nodes (.plain t)
  | file (t name : Text) : Placed nodes (.file t name)
  | generated {id : NodeId} {node : GeneratedText} {inputs : List (Text × Source)}
      (hinputs : ∀ input ∈ inputs, Placed nodes input.2) : Placed nodes (.generated id node inputs)
  | joined {id : NodeId} {children : List Source} (hchildren : ∀ s ∈ children, Placed nodes s) :
      Placed nodes (.joined id children)
  | edited {id : NodeId} {base : Source} {edits : List Edit} (hbase : Placed nodes base) :
      Placed nodes (.edited id base edits)
  | kept {id : NodeId} {child : Source} (h : nodes id = some (.kept id child))
      (hchild : Placed nodes child) : Placed nodes (.kept id child)

/-- More nodes leave those at their place that are there. -/
theorem Source.Placed.mono {nodes' : NodeId → Option Source} {s : Source} (h : s.Placed nodes)
    (hnodes : ∀ id t, nodes id = some t → nodes' id = some t) : s.Placed nodes' := by
  induction h with
  | plain t => exact .plain t
  | file t name => exact .file t name
  | generated _ ih => exact .generated ih
  | joined _ ih => exact .joined ih
  | edited _ ih => exact .edited ih
  | kept h _ ih => exact .kept (hnodes _ _ h) ih

/-! ## Cells -/

/-- The text, the number of its bytes and the bytes in a cell are those of a source. -/
structure Cell.Shows (s : Source) (c : Cell) : Prop where
  text : ∀ t, c.text = some t → t = s.text
  size : ∀ n, c.size = some n → n = s.size
  buffer : ∀ bytes, c.buffer = some bytes → bytes = s.bytes

theorem Cell.shows_empty (s : Source) : Cell.Shows s {} where
  text _ h := by cases h
  size _ h := by cases h
  buffer _ h := by cases h

/-- What a cell has besides the text and its bytes. -/
def Cell.others (c : Cell) :
    Option ContentHash × Option Composition × List (Bool × Option SourceMap) :=
  (c.contentHash, c.composed, c.maps)

namespace Slot

variable {α : Type}

/-- A slot is for a value of the text: what a cell has there is right if its texts are, and what is right
may be put there and touches nothing else. -/
structure OfText (slot : Slot α) (value : Source → α) : Prop where
  get : ∀ {s c v}, Cell.Shows s c → slot.get c = some v → v = value s
  put : ∀ {s c}, Cell.Shows s c → Cell.Shows s (slot.put (value s) c)
  others : ∀ v c, (slot.put v c).others = c.others

theorem text_ofText : Slot.text.OfText Source.text where
  get h hv := h.text _ hv
  put h := { h with text := fun _ ht => (Option.some.inj ht).symm }
  others _ _ := rfl

theorem size_ofText : Slot.size.OfText Source.size where
  get h hv := h.size _ hv
  put h := { h with size := fun _ hn => (Option.some.inj hn).symm }
  others _ _ := rfl

theorem buffer_ofText : Slot.buffer.OfText Source.bytes where
  get h hv := h.buffer _ hv
  put h := { h with buffer := fun _ hb => (Option.some.inj hb).symm }
  others _ _ := rfl

end Slot

/-! ## Stores -/

namespace Store

/-- The texts in the cells of some nodes are right, and the identities that are still to be given are
those of no node. -/
structure Shown (nodes : NodeId → Option Source) (s : Store) : Prop where
  cell : ∀ id child, nodes id = some (.kept id child) → (s.cell id).Shows child
  unused : ∀ id, s.nextId ≤ id → nodes id = none ∧ s.cell id = {}

/-- Two stores remember the same, but for texts in their cells. -/
structure Alike (s t : Store) : Prop where
  outside : { s with cells := [] } = { t with cells := [] }
  cells : ∀ id, (s.cell id).others = (t.cell id).others

theorem Alike.refl (s : Store) : s.Alike s := ⟨rfl, fun _ => rfl⟩

theorem Alike.symm {s t : Store} (h : s.Alike t) : t.Alike s :=
  ⟨h.outside.symm, fun id => (h.cells id).symm⟩

theorem Alike.trans {s t u : Store} (h : s.Alike t) (h' : t.Alike u) : s.Alike u :=
  ⟨h.outside.trans h'.outside, fun id => (h.cells id).trans (h'.cells id)⟩

/-- What has nothing to do with cells may be changed, and identities may be given. -/
theorem Shown.of_cells_eq {s t : Store} (h : s.Shown nodes) (hcells : t.cells = s.cells)
    (hnext : s.nextId ≤ t.nextId) : t.Shown nodes := by
  have hcell : ∀ id, t.cell id = s.cell id := by
    intro id
    unfold Store.cell
    rw [hcells]
  constructor
  · intro id child hnode
    rw [hcell]
    exact h.cell id child hnode
  · intro id hle
    rw [hcell]
    exact h.unused id (Nat.le_trans hnext hle)

/-- A cell may be changed as long as its texts stay right. -/
theorem Shown.updateCell {s : Store} (h : s.Shown nodes) {id : NodeId} {child : Source}
    (hnode : nodes id = some (.kept id child)) {change : Cell → Cell}
    (hchange : (s.cell id).Shows child → (change (s.cell id)).Shows child) :
    (s.updateCell id change).Shown nodes :=
  ⟨forall_cell_updateCell hnode h.cell hchange, unused_updateCell hnode h.unused⟩

/-- A change to a text in a cell leaves a store that remembers the same otherwise. -/
theorem alike_updateCell (s : Store) (id : NodeId) {change : Cell → Cell}
    (hchange : ∀ c, (change c).others = c.others) : s.Alike (s.updateCell id change) := by
  refine ⟨rfl, fun other => ?_⟩
  rw [cell_updateCell]
  split
  · rename_i heq
    rw [heq, hchange]
  · rfl

end Store

namespace Session

/-! ## Texts -/

section

variable {α β : Type}

/-- With right texts in the cells a reader gives a value; it leaves right texts there, and everything else
as it is. -/
def Renders (nodes : NodeId → Option Source) (r : Reader α) (v : α) : Prop :=
  ∀ s : Store, s.Shown nodes → (r s).1 = v ∧ (r s).2.Shown nodes ∧ s.Alike (r s).2

namespace Renders

variable {r : Reader α} {v : α}

protected theorem pure (v : α) : Renders nodes (pure v) v :=
  fun s hs => ⟨rfl, hs, Store.Alike.refl s⟩

protected theorem bind {f : α → Reader β} {w : β} (hr : Renders nodes r v)
    (hf : Renders nodes (f v) w) : Renders nodes (r >>= f) w := by
  intro s hs
  obtain ⟨hvalue, hshown, halike⟩ := hr s hs
  obtain ⟨hvalue', hshown', halike'⟩ := hf _ hshown
  rw [← hvalue] at hvalue' hshown' halike'
  exact ⟨hvalue', hshown', halike.trans halike'⟩

/-- A value of the text that may be in a cell. -/
protected theorem remember {slot : Slot α} {value : Source → α} (hslot : slot.OfText value)
    {id : NodeId} {child : Source} (hnode : nodes id = some (.kept id child))
    (hr : Renders nodes r (value child)) :
    Renders nodes (Provenance.remember slot id r) (value child) := by
  intro s hs
  cases hfound : slot.get (s.cell id) with
  | some found =>
    rw [remember_of_filled hfound]
    exact ⟨hslot.get (hs.cell id child hnode) hfound, hs, Store.Alike.refl s⟩
  | none =>
    obtain ⟨hvalue, hshown, halike⟩ := hr s hs
    rw [remember_of_empty hfound]
    refine ⟨hvalue, hshown.updateCell hnode fun hcell => ?_, halike.trans ?_⟩
    · rw [hvalue]
      exact hslot.put hcell
    · exact Store.alike_updateCell _ id (hslot.others _)

end Renders

end

/-- The texts of some sources, if each of them is right. -/
theorem textsOf_renders {ss : List Source} (h : ∀ s ∈ ss, Renders nodes (textOf s) s.text) :
    Renders nodes (textsOf ss) (ss.map Source.text) := by
  induction ss with
  | nil =>
    rw [textsOf]
    exact Renders.pure []
  | cons s rest ih =>
    obtain ⟨hs, hrest⟩ := List.forall_mem_cons.mp h
    rw [textsOf]
    exact Renders.bind hs (Renders.bind (ih hrest) (Renders.pure _))

/-- **The text of a source**, whatever its cells have of it. -/
theorem textOf_renders {s : Source} (h : s.Placed nodes) : Renders nodes (textOf s) s.text := by
  induction h with
  | plain t =>
    rw [textOf, Source.text]
    exact Renders.pure t
  | file t name =>
    rw [textOf, Source.text]
    exact Renders.pure t
  | @generated id node inputs hinputs ih =>
    rw [textOf, Source.text]
    exact Renders.pure node.text
  | joined hchildren ih =>
    rw [textOf, Source.text, ← Source.flatten_map_text]
    exact Renders.bind (textsOf_renders ih) (Renders.pure _)
  | edited hbase ih =>
    rw [textOf, Source.text]
    exact Renders.bind ih (Renders.pure _)
  | kept hnode hchild ih =>
    rw [textOf, Source.text]
    exact Renders.remember Slot.text_ofText hnode ih

/-- **The number of bytes of the text of a source**, whatever its cells have of it. -/
theorem sizeOf_renders {s : Source} (h : s.Placed nodes) : Renders nodes (sizeOf s) s.size := by
  induction h with
  | plain t => exact Renders.bind (textOf_renders (.plain t)) (Renders.pure _)
  | file t name => exact Renders.bind (textOf_renders (.file t name)) (Renders.pure _)
  | generated hinputs ih => exact Renders.bind (textOf_renders (.generated hinputs)) (Renders.pure _)
  | joined hchildren ih => exact Renders.bind (textOf_renders (.joined hchildren)) (Renders.pure _)
  | edited hbase ih => exact Renders.bind (textOf_renders (.edited hbase)) (Renders.pure _)
  | @kept id child hnode hchild ih =>
    have hsize : (Source.kept id child).size = child.size := by
      unfold Source.size Source.bytes
      rw [Source.text]
    rw [sizeOf, hsize]
    exact Renders.remember Slot.size_ofText hnode ih

/-- **The bytes of the text of a source**, whatever its cells have of it. -/
theorem bufferOf_renders {s : Source} (h : s.Placed nodes) : Renders nodes (bufferOf s) s.bytes := by
  have hbytes : ∀ {s : Source}, s.Placed nodes → Renders nodes
      (do
        let t ← textOf s
        pure t.utf8) s.bytes := fun hs => Renders.bind (textOf_renders hs) (Renders.pure _)
  cases h with
  | plain t => exact hbytes (.plain t)
  | file t name => exact hbytes (.file t name)
  | generated hinputs => exact hbytes (.generated hinputs)
  | joined hchildren => exact hbytes (.joined hchildren)
  | edited hbase => exact hbytes (.edited hbase)
  | @kept id child hnode hchild =>
    have hchildBytes : (Source.kept id child).bytes = child.bytes := by
      unfold Source.bytes
      rw [Source.text]
    have hread := hbytes (.kept hnode hchild)
    rw [hchildBytes] at hread ⊢
    rw [bufferOf]
    exact Renders.remember Slot.buffer_ofText hnode hread

end Session

end Provenance
