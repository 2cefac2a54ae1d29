/-
# Writing sources out

To write a source is to offer its pieces to the sink one after the other, until one is refused, whatever
the cells of its nodes have of its text.  What a sink does is left open: it may keep what it likes of a
piece, and refuse any.

The main facts:

* `writeSource_delivers` : writing a source is offering its pieces to the sink;
* `offerAll_taken`, `offerAll_refused` : what a sink has taken that closes after some pieces.
-/
import Provenance.Proofs.Session.Agree
import Provenance.Proofs.Session.Shown

namespace Provenance.Session

section

variable {ε κ : Type} {put : Text → EStateM ε κ Unit}

/-- Offers some texts to a sink one after the other; the first that is refused ends it. -/
def offerAll (put : Text → EStateM ε κ Unit) : List Text → EStateM ε κ Unit
  | [] => pure ()
  | t :: rest => do
    put t
    offerAll put rest

/-- Offering two lists of texts one after the other. -/
theorem offerAll_append (ts us : List Text) :
    offerAll put (ts ++ us) = offerAll put ts >>= fun _ => offerAll put us := by
  induction ts with
  | nil => rfl
  | cons t rest ih =>
    rw [List.cons_append, offerAll, offerAll, bind_assoc]
    exact bind_congr fun _ => ih

variable {nodes : NodeId → Option Source}

/-- With right texts in the cells an action does to the sink what offering some texts does, with the same
outcome; it leaves right texts in the cells, and everything else as it is. -/
def Delivers (nodes : NodeId → Option Source) (put : Text → EStateM ε κ Unit)
    (m : EStateM ε (Writing κ) Unit) (ts : List Text) : Prop :=
  ∀ w : Writing κ, w.store.Shown nodes →
    (outcome m w).1 = (outcome (offerAll put ts) w.sink).1 ∧
      (outcome m w).2.sink = (outcome (offerAll put ts) w.sink).2 ∧
      (outcome m w).2.store.Shown nodes ∧ w.store.Alike (outcome m w).2.store

namespace Delivers

protected theorem pure : Delivers nodes put (pure ()) [] :=
  fun w hw => ⟨rfl, rfl, hw, Store.Alike.refl w.store⟩

/-- One action after another delivers the texts of both. -/
protected theorem bind {m : EStateM ε (Writing κ) Unit} {f : Unit → EStateM ε (Writing κ) Unit}
    {ts us : List Text} (hm : Delivers nodes put m ts) (hf : Delivers nodes put (f ()) us) :
    Delivers nodes put (m >>= f) (ts ++ us) := by
  intro w hw
  obtain ⟨hresult, hsink, hshown, halike⟩ := hm w hw
  rw [offerAll_append, Meets.outcome_bind, Meets.outcome_bind]
  generalize outcome m w = out at hresult hsink hshown halike
  generalize outcome (offerAll put ts) w.sink = out' at hresult hsink
  obtain ⟨r, w'⟩ := out
  obtain ⟨r', k⟩ := out'
  obtain rfl : r = r' := hresult
  obtain rfl : w'.sink = k := hsink
  cases r with
  | ok u =>
    obtain ⟨hresult', hsink', hshown', halike'⟩ := hf w' hshown
    exact ⟨hresult', hsink', hshown', halike.trans halike'⟩
  | error e => exact ⟨rfl, rfl, hshown, halike⟩

/-- To read a value of the text first delivers nothing. -/
theorem read {α : Type} {r : Reader α} {v : α} (hr : Renders nodes r v)
    {f : α → EStateM ε (Writing κ) Unit} {ts : List Text} (hf : Delivers nodes put (f v) ts) :
    Delivers nodes put (Writing.storePart.run r.act >>= f) ts := by
  intro w hw
  obtain ⟨hvalue, hshown, halike⟩ := hr w.store hw
  have hread : outcome (Writing.storePart.run r.act >>= f) w =
      outcome (f v) ⟨(r w.store).2, w.sink⟩ := by
    rw [← hvalue]
    rfl
  obtain ⟨hresult, hsink, hshown', halike'⟩ := hf ⟨(r w.store).2, w.sink⟩ hshown
  rw [hread]
  exact ⟨hresult, hsink, hshown', halike.trans halike'⟩

end Delivers

/-- A text is offered if there is anything to write. -/
theorem writePiece_delivers (t : Text) :
    Delivers nodes put (writePiece put t) (Source.piece t) := by
  unfold writePiece Source.piece
  split
  · exact Delivers.pure
  · intro w hw
    have hoffer : outcome (offerAll put [t]) w.sink = outcome (put t) w.sink := by
      rw [offerAll, Meets.outcome_bind]
      generalize outcome (put t) w.sink = out
      obtain ⟨r, k⟩ := out
      cases r <;> rfl
    rw [hoffer, outcome_run]
    exact ⟨rfl, rfl, hw, Store.Alike.refl w.store⟩

theorem writePieces_delivers (ts : List Text) :
    Delivers nodes put (writePieces put ts) (ts.flatMap Source.piece) := by
  induction ts with
  | nil => exact Delivers.pure
  | cons t rest ih =>
    rw [writePieces, List.flatMap_cons]
    exact Delivers.bind (writePiece_delivers t) ih

/-- Writing some sources delivers their pieces if writing each of them does. -/
theorem writeAll_delivers {ss : List Source}
    (h : ∀ s ∈ ss, Delivers nodes put (writeSource put s) s.piecesOf) :
    Delivers nodes put (writeAll put ss) (Source.piecesOfAll ss) := by
  induction ss with
  | nil =>
    rw [writeAll, Source.piecesOfAll]
    exact Delivers.pure
  | cons s rest ih =>
    obtain ⟨hs, hrest⟩ := List.forall_mem_cons.mp h
    rw [writeAll, Source.piecesOfAll]
    exact Delivers.bind hs (ih hrest)

variable (put) in
/-- **Writing a source is offering its pieces to the sink** one after the other, whatever the sink is. -/
theorem writeSource_delivers {s : Source} (h : s.Placed nodes) :
    Delivers nodes put (writeSource put s) s.piecesOf := by
  induction h with
  | plain t =>
    rw [writeSource, Source.piecesOf]
    exact writePiece_delivers t
  | file t name =>
    rw [writeSource, Source.piecesOf]
    exact writePiece_delivers t
  | @generated id node inputs hinputs ih =>
    rw [writeSource, Source.piecesOf]
    exact writePiece_delivers node.text
  | joined hchildren ih =>
    rw [writeSource, Source.piecesOf]
    exact writeAll_delivers ih
  | edited hbase ih =>
    rw [writeSource, Source.piecesOf]
    exact Delivers.read (textOf_renders hbase) (writePieces_delivers _)
  | @kept id child hnode hchild ih =>
    have hread := textOf_renders (.kept hnode hchild)
    rw [Source.text] at hread
    rw [writeSource, Source.piecesOf]
    exact Delivers.read hread (writePiece_delivers _)

end

/-! ## Sinks -/

section

variable {ε : Type}

/-- A sink takes all texts that it has room for. -/
theorem offerAll_taken {ts : List Text} {k : Sink ε}
    (h : ∀ c ∈ k.closing, k.written.length + ts.length ≤ c.1) :
    outcome (offerAll Sink.put ts) k =
      (.ok (), { k with written := k.written ++ ts, calls := k.calls + ts.length }) := by
  induction ts generalizing k with
  | nil =>
    rw [List.append_nil]
    rfl
  | cons t rest ih =>
    have hput : outcome (Sink.put t) k =
        (.ok (), { k with written := k.written ++ [t], calls := k.calls + 1 }) := by
      unfold outcome Sink.put
      cases hclosing : k.closing with
      | none => rfl
      | some c =>
        have hroom := h c hclosing
        rw [List.length_cons] at hroom
        dsimp only
        rw [if_neg (by omega)]
    rw [offerAll, Meets.outcome_bind, hput]
    dsimp only
    rw [ih]
    · rw [List.append_assoc, List.length_cons, Nat.add_assoc, Nat.add_comm 1]
      rfl
    · intro c hc
      have hroom := h c hc
      rw [List.length_cons] at hroom
      rw [List.length_append, List.length_singleton]
      omega

/-- **A sink that closes refuses the first text that it has no room for**, and is offered no other. -/
theorem offerAll_refused {ts : List Text} {k : Sink ε} (room : Nat) {e : ε}
    (h : k.closing = some (k.written.length + room, e)) (hroom : room < ts.length) :
    outcome (offerAll Sink.put ts) k =
      (.error e, { k with written := k.written ++ ts.take room, calls := k.calls + room + 1 }) := by
  have hsplit : ts = ts.take room ++ ts[room] :: ts.drop (room + 1) := by
    rw [← List.drop_eq_getElem_cons hroom, List.take_append_drop]
  have hlength : (ts.take room).length = room := List.length_take_of_le (Nat.le_of_lt hroom)
  have htaken : outcome (offerAll Sink.put (ts.take room)) k =
      (.ok (), { k with written := k.written ++ ts.take room, calls := k.calls + room }) := by
    rw [offerAll_taken, hlength]
    intro c hc
    rw [h] at hc
    rw [← Option.some.inj hc, hlength]
  have hput : outcome (Sink.put ts[room])
      { k with written := k.written ++ ts.take room, calls := k.calls + room } =
        (.error e, { k with written := k.written ++ ts.take room, calls := k.calls + room + 1 }) := by
    unfold outcome Sink.put
    dsimp only
    rw [h]
    dsimp only
    rw [if_pos (by rw [List.length_append, hlength])]
  rw [hsplit, offerAll_append, Meets.outcome_bind, ← hsplit, htaken]
  dsimp only
  rw [offerAll, Meets.outcome_bind, hput]

end

end Provenance.Session
