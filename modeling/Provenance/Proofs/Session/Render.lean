/-
# Rendering with faithful memory

With faithful memory, the text of a source, its bytes, their number and its content hash are those
without memory, and the memory stays faithful.

The main facts:

* `textOf_reads`, `sizeOf_reads`, `bufferOf_reads` : what a source is as text;
* `contentHashOf_reads` : the content hash of a source, with the fields of all its parts hashed.
-/
import Provenance.Proofs.Session.Faithful
import Provenance.Session.Render

namespace Provenance

/-- The texts of some sources make up their joined text. -/
theorem Source.flatten_map_text (ss : List Source) : (ss.map text).flatten = textAll ss := by
  induction ss with
  | nil => rfl
  | cons s rest ih => rw [List.map_cons, List.flatten_cons, ih, textAll]

namespace Session

variable {hashed : List (List Text)} {nodes : NodeId → Option Source}

/-! ## Texts -/

/-- The texts of some sources, if each of them is right. -/
theorem textsOf_reads {ss : List Source}
    (h : ∀ s ∈ ss, Reads hashed (Store.Serves hashed nodes) (textOf s) fun t => t = s.text) :
    Reads hashed (Store.Serves hashed nodes) (textsOf ss) fun ts => ts = ss.map Source.text := by
  induction ss with
  | nil =>
    rw [textsOf]
    exact Reads.pure rfl
  | cons s rest ih =>
    obtain ⟨hs, hrest⟩ := List.forall_mem_cons.mp h
    rw [textsOf]
    refine Reads.bind_eq (g := fun first => first :: rest.map Source.text) hs fun first => ?_
    exact Reads.bind_eq (g := fun others => first :: others) (ih hrest) fun others => Reads.pure rfl

/-- The text of a source. -/
theorem textOf_reads {s : Source} (h : s.Held nodes) :
    Reads hashed (Store.Serves hashed nodes) (textOf s) fun t => t = s.text := by
  induction h with
  | @plain t hformed =>
    rw [textOf, Source.text]
    exact Reads.pure rfl
  | @file t name hformed =>
    rw [textOf, Source.text]
    exact Reads.pure rfl
  | generated h hformed hinputs ih =>
    rw [textOf, Source.text]
    exact Reads.pure rfl
  | joined h hchildren ih =>
    rw [textOf, Source.text, ← Source.flatten_map_text]
    exact Reads.bind_eq (g := List.flatten) (textsOf_reads ih) fun texts => Reads.pure rfl
  | @edited id base edits h hformed hbase ih =>
    rw [textOf, Source.text]
    exact Reads.bind_eq (g := fun t => Edit.splice t edits) ih fun t => Reads.pure rfl
  | kept h hchild ih =>
    rw [textOf, Source.text]
    exact Reads.remember Slot.text_holds h ih

/-- What is worked out from the text of a source. -/
theorem textOf_bind_reads {α : Type} {s : Source} (h : s.Held nodes) (g : Text → α) :
    Reads hashed (Store.Serves hashed nodes)
      (do
        let t ← textOf s
        pure (g t)) fun v => v = g s.text :=
  Reads.bind_eq (textOf_reads h) fun _ => Reads.pure rfl

/-- The number of bytes of the text of a source. -/
theorem sizeOf_reads {s : Source} (h : s.Held nodes) :
    Reads hashed (Store.Serves hashed nodes) (sizeOf s) fun n => n = s.size := by
  induction h with
  | @plain t hformed => exact textOf_bind_reads (.plain hformed) fun t => t.utf8.length
  | @file t name hformed => exact textOf_bind_reads (.file hformed) fun t => t.utf8.length
  | generated h hformed hinputs ih =>
    exact textOf_bind_reads (.generated h hformed hinputs) fun t => t.utf8.length
  | joined h hchildren ih => exact textOf_bind_reads (.joined h hchildren) fun t => t.utf8.length
  | edited h hformed hbase ih =>
    exact textOf_bind_reads (.edited h hformed hbase) fun t => t.utf8.length
  | @kept id child h hchild ih =>
    have hsize : (Source.kept id child).size = child.size := by
      unfold Source.size Source.bytes
      rw [Source.text]
    rw [sizeOf, hsize]
    exact Reads.remember Slot.size_holds h ih

/-- The bytes of the text of a source. -/
theorem bufferOf_reads {s : Source} (h : s.Held nodes) :
    Reads hashed (Store.Serves hashed nodes) (bufferOf s) fun bytes => bytes = s.bytes := by
  cases h with
  | @plain t hformed => exact textOf_bind_reads (.plain hformed) Text.utf8
  | @file t name hformed => exact textOf_bind_reads (.file hformed) Text.utf8
  | generated h hformed hinputs =>
    exact textOf_bind_reads (.generated h hformed hinputs) Text.utf8
  | joined h hchildren => exact textOf_bind_reads (.joined h hchildren) Text.utf8
  | edited h hformed hbase => exact textOf_bind_reads (.edited h hformed hbase) Text.utf8
  | @kept id child h hchild =>
    have hbytes : (Source.kept id child).bytes = child.bytes := by
      unfold Source.bytes
      rw [Source.text]
    have hread : Reads hashed (Store.Serves hashed nodes) _ _ :=
      textOf_bind_reads (.kept h hchild) Text.utf8
    rw [bufferOf, hbytes]
    exact Reads.remember Slot.buffer_holds h hread

/-! ## Content hashes -/

/-- The content hashes of some sources, if each of them is right. -/
theorem contentHashesOf_reads {ss : List Source}
    (h : ∀ s ∈ ss, Reads hashed (Store.Serves hashed nodes) (contentHashOf s)
      fun f => f = s.contentHash ∧ s.HashedIn hashed) :
    Reads hashed (Store.Serves hashed nodes) (contentHashesOf ss)
      fun fs => fs = Source.contentHashAll ss ∧ ∀ s ∈ ss, s.HashedIn hashed := by
  induction ss with
  | nil =>
    rw [contentHashesOf]
    exact Reads.pure ⟨rfl, by simp⟩
  | cons s rest ih =>
    obtain ⟨hs, hrest⟩ := List.forall_mem_cons.mp h
    rw [contentHashesOf]
    refine Reads.bind hs fun first => Reads.bind (ih hrest) fun others => Reads.pure ?_
    rintro ⟨rfl, hothers⟩ ⟨rfl, hfirst⟩
    exact ⟨rfl, List.forall_mem_cons.mpr ⟨hfirst, hothers⟩⟩

/-- The content hashes of the further sources that are listed, if each of them is right. -/
theorem inputHashes_reads (node : GeneratedText) {inputs : List (Text × Source)}
    (h : ∀ input ∈ inputs, Reads hashed (Store.Serves hashed nodes) (contentHashOf input.2)
      fun f => f = input.2.contentHash ∧ input.2.HashedIn hashed) :
    Reads hashed (Store.Serves hashed nodes) (inputHashes node inputs)
      fun fs => fs = Source.inputHashesOf node inputs ∧
        ∀ input ∈ node.listed inputs, input.2.HashedIn hashed := by
  induction inputs with
  | nil =>
    rw [inputHashes]
    exact Reads.pure ⟨rfl, by simp [GeneratedText.listed]⟩
  | cons input rest ih =>
    obtain ⟨key, s⟩ := input
    obtain ⟨hs, hrest⟩ := List.forall_mem_cons.mp h
    rw [inputHashes, Source.inputHashesOf, GeneratedText.listed, List.filter_cons]
    cases node.lists key with
    | true =>
      refine Reads.bind hs fun first => Reads.bind (ih hrest) fun others => Reads.pure ?_
      rintro ⟨rfl, hothers⟩ ⟨rfl, hfirst⟩
      exact ⟨rfl, List.forall_mem_cons.mpr ⟨hfirst, hothers⟩⟩
    | false => exact ih hrest

/-- **The content hash of a source**, with the fields of all its parts hashed. -/
theorem contentHashOf_reads {s : Source} (h : s.Held nodes) :
    Reads hashed (Store.Serves hashed nodes) (contentHashOf s)
      fun f => f = s.contentHash ∧ s.HashedIn hashed := by
  induction h with
  | plain hformed =>
    rw [contentHashOf, Source.contentHash]
    apply Reads.imp (hashFields_reads _)
    rintro f ⟨rfl, hmem⟩
    exact ⟨rfl, .plain ⟨hmem, hformed.fields (by simp [Source.kind])⟩⟩
  | file hformed =>
    rw [contentHashOf, Source.contentHash]
    apply Reads.imp (hashFields_reads _)
    rintro f ⟨rfl, hmem⟩
    exact ⟨rfl, .file ⟨hmem, hformed.fields (by simp [Source.kind])⟩⟩
  | @generated id node inputs h hformed hinputs ih =>
    rw [contentHashOf, Source.contentHash]
    refine Reads.bind (inputHashes_reads node ih) fun hashes => Reads.imp (hashFields_reads _) ?_
    rintro f ⟨rfl, hmem⟩ ⟨rfl, hparts⟩
    exact ⟨rfl, .generated ⟨hmem, hformed.fields (by simp [Source.kind])⟩ hformed.1.inheritsOwn hparts⟩
  | @joined id children h hchildren ih =>
    have hformed : (Source.joined id children).Formed := trivial
    rw [contentHashOf, Source.contentHash]
    refine Reads.bind (contentHashesOf_reads ih) fun hashes => Reads.imp (hashFields_reads _) ?_
    rintro f ⟨rfl, hmem⟩ ⟨rfl, hparts⟩
    exact ⟨rfl, .joined ⟨hmem, hformed.fields (by simp [Source.kind])⟩ hparts⟩
  | edited h hformed hbase ih =>
    rw [contentHashOf, Source.contentHash]
    refine Reads.bind ih fun hash => Reads.imp (hashFields_reads _) ?_
    rintro f ⟨rfl, hmem⟩ ⟨rfl, hpart⟩
    exact ⟨rfl, .edited ⟨hmem, hformed.fields (by simp [Source.kind])⟩ hpart⟩
  | kept h hchild ih =>
    rw [contentHashOf, Source.contentHash]
    apply Reads.imp (Reads.remember Slot.contentHash_holds h ih)
    rintro f ⟨rfl, hpart⟩
    exact ⟨rfl, .kept hpart⟩

/-! ## Writing out -/

section Writing

variable {ε κ : Type} {put : Text → EStateM ε κ Unit}

instance : HasStore (Writing κ) := ⟨Writing.store⟩

/-- An action on the store of a writing. -/
theorem Gives.onWriting {α : Type} {m : EStateM ε Store α} {Q : Except ε α → Prop}
    (h : Gives hashed (Store.Serves hashed nodes) m Q) :
    Gives hashed (fun w : Writing κ => w.store.Serves hashed nodes) (Writing.storePart.run m) Q :=
  Meets.run h (fun _ => rfl) (fun _ _ => rfl) (fun _ hw => hw) fun _ _ _ _ _ hr => hr

/-- A piece that is written, or refused, leaves the store as it is. -/
theorem writePiece_gives (t : Text) :
    Gives hashed (fun w : Writing κ => w.store.Serves hashed nodes) (writePiece put t)
      fun _ => True := by
  intro w hw
  unfold writePiece
  by_cases ht : t = []
  · rw [if_pos ht]
    exact ⟨fun _ h => h, hw, fun _ => trivial⟩
  · rw [if_neg ht]
    unfold outcome Part.run
    cases put t (Writing.sinkPart.get w) with
    | ok u sink => exact ⟨fun _ h => h, hw, fun _ => trivial⟩
    | error e sink => exact ⟨fun _ h => h, hw, fun _ => trivial⟩

theorem writePieces_gives (ts : List Text) :
    Gives hashed (fun w : Writing κ => w.store.Serves hashed nodes) (writePieces put ts)
      fun _ => True := by
  induction ts with
  | nil => exact Gives.pure trivial
  | cons t rest ih =>
    exact Gives.follow (writePiece_gives t) fun _ => ih

/-- Writing some sources keeps faithful memory if writing each of them does. -/
theorem writeAll_gives {ss : List Source}
    (h : ∀ s ∈ ss, Gives hashed (fun w : Writing κ => w.store.Serves hashed nodes)
      (writeSource put s) fun _ => True) :
    Gives hashed (fun w : Writing κ => w.store.Serves hashed nodes) (writeAll put ss)
      fun _ => True := by
  induction ss with
  | nil =>
    rw [writeAll]
    exact Gives.pure trivial
  | cons s rest ih =>
    obtain ⟨hs, hrest⟩ := List.forall_mem_cons.mp h
    rw [writeAll]
    exact Gives.follow hs fun _ => ih hrest

/-- **Writing a source keeps faithful memory.** -/
theorem writeSource_gives {s : Source} (h : s.Held nodes) :
    Gives hashed (fun w : Writing κ => w.store.Serves hashed nodes) (writeSource put s)
      fun _ => True := by
  induction h with
  | @plain t hformed =>
    rw [writeSource]
    exact writePiece_gives t
  | @file t name hformed =>
    rw [writeSource]
    exact writePiece_gives t
  | @generated id node inputs h hformed hinputs ih =>
    rw [writeSource]
    exact writePiece_gives node.text
  | joined h hchildren ih =>
    rw [writeSource]
    exact writeAll_gives ih
  | @edited id base edits h hformed hbase ih =>
    rw [writeSource]
    exact Gives.follow (Gives.onWriting (textOf_reads hbase).act) fun t => writePieces_gives _
  | kept h hchild ih =>
    rw [writeSource]
    exact Gives.follow (Gives.onWriting (textOf_reads (.kept h hchild)).act) fun t =>
      writePiece_gives t

end Writing

end Session

end Provenance
