/-
# Faithful memory

What a session remembers is faithful if every value in a cell and in a cache is the one that would be
computed without memory.  A content cache is faithful as long as no two streams of bytes that have
been hashed share a digest.  A composed result always has the text of its source; the rest of it is that
of the source if no generated text has been hashed that may inherit a further source, which no content
hash tells.

The main facts:

* `Store.Serves.updateCell` : a right result may be put into a cell;
* `Reads.remember` : a result that is remembered in a cell is as right as one that is computed;
* `decodeKept_yields` : the decoding of a mappings text with memory is its decoding.
-/
import Provenance.Proofs.Mapping.Decode
import Provenance.Proofs.Session.Meets
import Provenance.Proofs.Tree.ContentHash

namespace Provenance

variable {hashed : List (List Text)} {nodes : NodeId → Option Source}

/-! ## Nodes -/

/-- Every node of a source is the one that its identity stands for, and the texts of the source are
well formed. -/
inductive Source.Held (nodes : NodeId → Option Source) : Source → Prop where
  | plain {t : Text} (hformed : Formed (.plain t)) : Held nodes (.plain t)
  | file {t name : Text} (hformed : Formed (.file t name)) : Held nodes (.file t name)
  | generated {id : NodeId} {node : GeneratedText} {inputs : List (Text × Source)}
      (h : nodes id = some (.generated id node inputs)) (hformed : Formed (.generated id node inputs))
      (hinputs : ∀ input ∈ inputs, Held nodes input.2) : Held nodes (.generated id node inputs)
  | joined {id : NodeId} {children : List Source} (h : nodes id = some (.joined id children))
      (hchildren : ∀ s ∈ children, Held nodes s) : Held nodes (.joined id children)
  | edited {id : NodeId} {base : Source} {edits : List Edit}
      (h : nodes id = some (.edited id base edits)) (hformed : Formed (.edited id base edits))
      (hbase : Held nodes base) : Held nodes (.edited id base edits)
  | kept {id : NodeId} {child : Source} (h : nodes id = some (.kept id child))
      (hchild : Held nodes child) : Held nodes (.kept id child)

/-- More nodes leave those at their place that are there. -/
theorem Source.Held.mono {nodes' : NodeId → Option Source} {s : Source} (h : s.Held nodes)
    (hnodes : ∀ id t, nodes id = some t → nodes' id = some t) : s.Held nodes' := by
  induction h with
  | plain hformed => exact .plain hformed
  | file hformed => exact .file hformed
  | generated h hformed _ ih => exact .generated (hnodes _ _ h) hformed ih
  | joined h _ ih => exact .joined (hnodes _ _ h) ih
  | edited h hformed _ ih => exact .edited (hnodes _ _ h) hformed ih
  | kept h _ ih => exact .kept (hnodes _ _ h) ih

/-! ## Composed results -/

/-- A remembered result of a source has its text.  It is the result without a limit if no generated text
has been hashed that may inherit a further source. -/
structure Source.HasResult (hashed : List (List Text)) (s : Source) (c : Composition) : Prop where
  text : c.text = s.text
  unlimited : ContentHash.Overt hashed → s.unlimited = .ok c

/-! ## Cells -/

/-- Every result in a cell is that of a source without memory. -/
structure Cell.Faithful (hashed : List (List Text)) (s : Source) (c : Cell) : Prop where
  text : ∀ t, c.text = some t → t = s.text
  size : ∀ n, c.size = some n → n = s.size
  buffer : ∀ bytes, c.buffer = some bytes → bytes = s.bytes
  contentHash : ∀ f, c.contentHash = some f → f = s.contentHash ∧ s.HashedIn hashed
  composed : ∀ r, c.composed = some r → s.HasResult hashed r
  maps : ∀ columns m, c.maps.lookup columns = some m → ContentHash.Overt hashed →
    ∃ r, s.unlimited = .ok r ∧ r.toMap { columns := columns } = .ok m

theorem Cell.faithful_empty (hashed : List (List Text)) (s : Source) :
    Cell.Faithful hashed s {} where
  text _ h := by cases h
  size _ h := by cases h
  buffer _ h := by cases h
  contentHash _ h := by cases h
  composed _ h := by cases h
  maps _ _ h := by cases h

/-- What a faithful cell has in a slot is right, and what is right may be put there. -/
structure Slot.Holds {α : Type} (slot : Slot α) (hashed : List (List Text)) (s : Source)
    (right : α → Prop) : Prop where
  get : ∀ c v, Cell.Faithful hashed s c → slot.get c = some v → right v
  put : ∀ c v, Cell.Faithful hashed s c → right v → Cell.Faithful hashed s (slot.put v c)

namespace Slot

variable {s : Source}

theorem text_holds : Slot.text.Holds hashed s fun t => t = s.text where
  get _ _ h hv := h.text _ hv
  put _ _ h hv := { h with text := fun _ ht => (Option.some.inj ht).symm.trans hv }

theorem size_holds : Slot.size.Holds hashed s fun n => n = s.size where
  get _ _ h hv := h.size _ hv
  put _ _ h hv := { h with size := fun _ hn => (Option.some.inj hn).symm.trans hv }

theorem buffer_holds : Slot.buffer.Holds hashed s fun bytes => bytes = s.bytes where
  get _ _ h hv := h.buffer _ hv
  put _ _ h hv := { h with buffer := fun _ hb => (Option.some.inj hb).symm.trans hv }

theorem contentHash_holds :
    Slot.contentHash.Holds hashed s fun f => f = s.contentHash ∧ s.HashedIn hashed where
  get _ _ h hv := h.contentHash _ hv
  put _ _ h hv := { h with contentHash := fun _ hf => Option.some.inj hf ▸ hv }

theorem composed_holds : Slot.composed.Holds hashed s (s.HasResult hashed) where
  get _ _ h hv := h.composed _ hv
  put _ _ h hv := { h with composed := fun _ hr => Option.some.inj hr ▸ hv }

theorem map_holds (columns : Bool) : (Slot.map columns).Holds hashed s fun m =>
    ContentHash.Overt hashed →
      ∃ r, s.unlimited = .ok r ∧ r.toMap { columns := columns } = .ok m where
  get _ _ h hv := h.maps _ _ hv
  put c m h hv := by
    refine { h with maps := fun other m' hm => ?_ }
    by_cases hother : other = columns
    · subst hother
      obtain rfl : m = m' := Option.some.inj ((Assoc.lookup_insert_self _ _ _).symm.trans hm)
      exact hv
    · exact h.maps other m' ((Assoc.lookup_insert_of_ne hother _ _).symm.trans hm)

end Slot

/-! ## Stores -/

/-- Everything that a store remembers is what would be computed without memory. -/
structure Store.Faithful (hashed : List (List Text)) (nodes : NodeId → Option Source)
    (store : Store) : Prop where
  cell : ∀ id child, nodes id = some (.kept id child) → (store.cell id).Faithful hashed child
  decoded : ∀ key table, store.decodeCache.get? key = some table →
    ∃ t, [t] ∈ hashed ∧ key = .ofFields [t] ∧ MappingTable.decode t = .ok table
  composed : ∀ key c, store.composeCache.get? key = some c →
    ∃ s : Source, s.HashedIn hashed ∧ s.contentHash = key ∧ s.HasResult hashed c

/-- What is said of the cells of all nodes stays true when one cell is changed, if it stays true of that
one. -/
theorem Store.forall_cell_updateCell {holds : Source → Cell → Prop} {store : Store} {id : NodeId}
    {child : Source} (hnode : nodes id = some (.kept id child)) {change : Cell → Cell}
    (h : ∀ other child', nodes other = some (.kept other child') → holds child' (store.cell other))
    (hchange : holds child (store.cell id) → holds child (change (store.cell id))) :
    ∀ other child', nodes other = some (.kept other child') →
      holds child' ((store.updateCell id change).cell other) := by
  intro other child' hother
  rw [cell_updateCell]
  by_cases heq : other = id
  · -- an identity stands for one node only
    subst heq
    obtain rfl : child = child' := by
      have hkept := Option.some.inj (hnode.symm.trans hother)
      injection hkept
    rw [if_pos rfl]
    exact hchange (h other child hnode)
  · rw [if_neg heq]
    exact h other child' hother

/-- A node has an identity that was given, so a change of its cell leaves those alone that are still to
be given. -/
theorem Store.unused_updateCell {store : Store} {id : NodeId} {node : Source}
    (hnode : nodes id = some node) {change : Cell → Cell}
    (h : ∀ other, store.nextId ≤ other → nodes other = none ∧ store.cell other = {}) :
    ∀ other, store.nextId ≤ other →
      nodes other = none ∧ (store.updateCell id change).cell other = {} := by
  intro other hle
  have hne : other ≠ id := by
    rintro rfl
    have hnone := (h other hle).1
    rw [hnode] at hnone
    cases hnone
  rw [cell_updateCell, if_neg hne]
  exact h other hle

/-- A store serves some nodes: the identities that are still to be given are those of no node, and
what is remembered is faithful if all that has been hashed is among `hashed`. -/
structure Store.Serves (hashed : List (List Text)) (nodes : NodeId → Option Source)
    (store : Store) : Prop where
  unused : ∀ id, store.nextId ≤ id → nodes id = none ∧ store.cell id = {}
  faithful : store.hashed ⊆ hashed → store.Faithful hashed nodes

namespace Store.Serves

variable {store store' : Store}

/-- A store that remembers no more than another serves the same nodes. -/
theorem of_eq (h : store.Serves hashed nodes) (hid : store'.nextId = store.nextId)
    (hcells : store'.cells = store.cells) (hlog : store.hashed ⊆ store'.hashed)
    (hdecoded : ∀ key table, store'.decodeCache.get? key = some table →
      store.decodeCache.get? key = some table)
    (hcomposed : ∀ key c, store'.composeCache.get? key = some c →
      store.composeCache.get? key = some c) : store'.Serves hashed nodes := by
  have hcell : ∀ id, store'.cell id = store.cell id := by
    intro id
    unfold Store.cell
    rw [hcells]
  constructor
  · intro id hle
    rw [hid] at hle
    rw [hcell]
    exact h.unused id hle
  · intro hsub
    have hf := h.faithful fun _ hmem => hsub (hlog hmem)
    constructor
    · intro id child hnode
      rw [hcell]
      exact hf.cell id child hnode
    · exact fun key table hkey => hf.decoded key table (hdecoded key table hkey)
    · exact fun key c hkey => hf.composed key c (hcomposed key c hkey)

/-- A right result may be put into a cell. -/
theorem updateCell (h : store.Serves hashed nodes) {id : NodeId} {child : Source}
    (hnode : nodes id = some (.kept id child)) {change : Cell → Cell}
    (hchange : store.hashed ⊆ hashed → (store.cell id).Faithful hashed child →
      (change (store.cell id)).Faithful hashed child) :
    (store.updateCell id change).Serves hashed nodes := by
  refine ⟨unused_updateCell hnode h.unused, fun hsub => ?_⟩
  have hf := h.faithful hsub
  exact ⟨forall_cell_updateCell hnode hf.cell (hchange hsub), hf.decoded, hf.composed⟩

/-- What a cache has after an insertion it had before, or it was inserted. -/
theorem get?_insertNew_or {V : Type} {c : Cache V} {key other : ContentHash} {value v : V}
    (h : (c.insertNew key value).2.get? other = some v) :
    c.get? other = some v ∨ (other = key ∧ v = value) := by
  by_cases hne : other = key
  · subst hne
    rw [Cache.get?_insertNew, Cache.insertNew_fst, Option.some_inj] at h
    cases hfound : c.get? other with
    | some stored =>
      rw [hfound] at h
      exact Or.inl (congrArg some h)
    | none =>
      rw [hfound] at h
      exact Or.inr ⟨rfl, h.symm⟩
  · rw [Cache.get?_insertNew_of_ne c hne] at h
    exact Or.inl h

/-- A right table may be put into the cache of decoded tables. -/
theorem insertDecoded (h : store.Serves hashed nodes) {key : ContentHash} {table : MappingTable}
    (hright : store.hashed ⊆ hashed →
      ∃ t, [t] ∈ hashed ∧ key = .ofFields [t] ∧ MappingTable.decode t = .ok table) :
    { store with decodeCache := (store.decodeCache.insertNew key table).2 }.Serves hashed nodes := by
  refine ⟨h.unused, fun hsub => ?_⟩
  have hf := h.faithful hsub
  refine ⟨hf.cell, fun other found hfound => ?_, hf.composed⟩
  rcases get?_insertNew_or hfound with hold | ⟨rfl, rfl⟩
  · exact hf.decoded other found hold
  · exact hright hsub

/-- A right result may be put into the cache of composed results. -/
theorem insertComposed (h : store.Serves hashed nodes) {key : ContentHash} {c : Composition}
    (hright : store.hashed ⊆ hashed →
      ∃ s : Source, s.HashedIn hashed ∧ s.contentHash = key ∧ s.HasResult hashed c) :
    { store with composeCache := (store.composeCache.insertNew key c).2 }.Serves hashed nodes := by
  refine ⟨h.unused, fun hsub => ?_⟩
  have hf := h.faithful hsub
  refine ⟨hf.cell, hf.decoded, fun other found hfound => ?_⟩
  rcases get?_insertNew_or hfound with hold | ⟨rfl, rfl⟩
  · exact hf.composed other found hold
  · exact hright hsub

end Store.Serves

namespace Session

/-! ## Remembering -/

/-- **A result that is remembered in a cell is as right as one that is computed.** -/
theorem Reads.remember {α : Type} {slot : Slot α} {child : Source} {right : α → Prop}
    (hslot : slot.Holds hashed child right) {id : NodeId}
    (hnode : nodes id = some (.kept id child)) {compute : Reader α}
    (hcompute : Reads hashed (Store.Serves hashed nodes) compute right) :
    Reads hashed (Store.Serves hashed nodes) (Provenance.remember slot id compute) right := by
  intro s hs
  cases hfound : slot.get (s.cell id) with
  | some v =>
    rw [remember_of_filled hfound]
    refine ⟨fun _ hf => hf, hs, fun hsub => ?_⟩
    exact hslot.get _ v ((hs.faithful hsub).cell id child hnode) hfound
  | none =>
    obtain ⟨hlog, ht, hv⟩ := hcompute s hs
    rw [remember_of_empty hfound]
    refine ⟨hlog, ht.updateCell hnode fun hsub hcell => ?_, hv⟩
    exact hslot.put _ _ hcell (hv hsub)

/-! ## Hashing and decoding -/

/-- Hashing some fields gives their content hash, and the fields have been hashed. -/
theorem hashFields_reads (fields : List Text) :
    Reads hashed (Store.Serves hashed nodes) (hashFields fields)
      fun f => f = .ofFields fields ∧ fields ∈ hashed := by
  intro s hs
  have hlog : s.hashed ⊆ fields :: s.hashed := List.subset_cons_self fields s.hashed
  refine ⟨hlog, ?_, fun hsub => ⟨rfl, hsub List.mem_cons_self⟩⟩
  exact hs.of_eq rfl rfl hlog (fun _ _ h => h) fun _ _ h => h

/-- **The decoding of a mappings text with memory is its decoding.** -/
theorem decodeKept_yields (hfree : ContentHash.CollisionFree hashed) (t : Text) :
    Yields hashed (Store.Serves hashed nodes) (decodeKept t) (MappingTable.decode t) := by
  refine Gives.bind_ok (hashFields_reads [t]).act fun key => Gives.fetch (fun _ _ => rfl) ?_ ?_ ?_ ?_
  · rintro s ⟨hs, hkey⟩
    exact ⟨⟨hs.of_eq rfl rfl (List.Subset.refl _) (fun _ _ h => h) fun _ _ h => h, hkey⟩,
      ⟨hs.of_eq rfl rfl (List.Subset.refl _) (fun _ _ h => h) fun _ _ h => h, hkey⟩⟩
  · rintro s table ⟨hs, hkey⟩ hsub hfound
    obtain ⟨rfl, hmem⟩ := hkey hsub
    obtain ⟨t', hmem', hkey', hdecode⟩ := (hs.faithful hsub).decoded _ table hfound
    -- what is in the cache was decoded, so it is ASCII; nothing need be known of `t`
    have hascii := MappingTable.isAscii_of_decode hdecode
    obtain rfl := hfree.text_eq hmem' hmem hascii hkey'.symm
    exact hdecode.symm
  · rintro s table ⟨hs, hkey⟩ hdecode
    refine ⟨hs.insertDecoded fun hsub => ?_, hkey⟩
    obtain ⟨rfl, hmem⟩ := hkey hsub
    exact ⟨t, hmem, rfl, (hdecode hsub).symm⟩
  · apply Gives.imp (Yields.settle id (MappingTable.decode t))
    rintro r rfl
    cases MappingTable.decode t <;> rfl

end Session

end Provenance
