/-
# Sources as streams

The text of a source is written out in pieces.  None of them is empty, together they are the text, and a
sink that closes has taken those that it had room for when the error that it closed with ends the
writing.  However far the writing gets, it leaves nothing behind that an answer could show.

The main facts:

* `ne_nil_of_mem_piecesOf` : no piece is empty;
* `writeSource_streams` : writing to a sink that closes after some pieces.
-/
import Provenance.Proofs.Session.Peers

namespace Provenance

/-! ## Pieces -/

namespace Source

theorem ne_nil_of_mem_piece {t c : Text} (h : c ∈ piece t) : c ≠ [] := by
  unfold piece at h
  split at h
  · cases h
  · rename_i ht
    rw [List.mem_singleton.mp h]
    exact ht

mutual

/-- No piece that is written out is empty. -/
theorem ne_nil_of_mem_piecesOf (s : Source) {c : Text} (h : c ∈ piecesOf s) : c ≠ [] := by
  cases s with
  | plain t => exact ne_nil_of_mem_piece (by rwa [piecesOf] at h)
  | file t name => exact ne_nil_of_mem_piece (by rwa [piecesOf] at h)
  | generated id node inputs => exact ne_nil_of_mem_piece (by rwa [piecesOf] at h)
  | joined id children => exact ne_nil_of_mem_piecesOfAll children (by rwa [piecesOf] at h)
  | edited id base edits =>
    rw [piecesOf] at h
    obtain ⟨t, -, hc⟩ := List.mem_flatMap.mp h
    exact ne_nil_of_mem_piece hc
  | kept id child => exact ne_nil_of_mem_piece (by rwa [piecesOf] at h)

theorem ne_nil_of_mem_piecesOfAll (ss : List Source) {c : Text} (h : c ∈ piecesOfAll ss) :
    c ≠ [] := by
  cases ss with
  | nil => cases h
  | cons s rest =>
    rw [piecesOfAll] at h
    rcases List.mem_append.mp h with h | h
    · exact ne_nil_of_mem_piecesOf s h
    · exact ne_nil_of_mem_piecesOfAll rest h

end

end Source

namespace Session

/-! ## Streams -/

/-- What a sink that never fails receives of a source. -/
def received (session : Session) (s : Source) : List Text :=
  (outcome (writeSource (Sink.put : Text → EStateM Empty (Sink Empty) Unit) s)
    ⟨session.store, {}⟩).2.sink.written

variable {nodes : NodeId → Option Source} {session : Session} {s : Source}

/-- A sink that never fails receives the pieces of a source. -/
theorem received_eq (h : s.Placed nodes) (hstore : session.store.Shown nodes) :
    session.received s = s.piecesOf := by
  obtain ⟨-, hsink, -, -⟩ := writeSource_delivers Sink.put h ⟨session.store, {}⟩ hstore
  unfold received
  rw [hsink, offerAll_taken fun c hc => by cases hc]
  rfl

/-- A sink that closes after some pieces fails the writing with its error if there are more, and takes
all of them otherwise. -/
theorem writeSource_closing (h : s.Placed nodes) {store : Store} (hstore : store.Shown nodes)
    {ε : Type} (n : Nat) (e : ε) :
    let out := outcome (writeSource Sink.put s) ⟨store, { closing := some (n, e) }⟩
    if n < s.piecesOf.length then
      out.1 = .error e ∧ out.2.sink.written = s.piecesOf.take n ∧ out.2.sink.calls = n + 1
    else
      out.1 = .ok () ∧ out.2.sink.written = s.piecesOf ∧
        out.2.sink.calls = s.piecesOf.length := by
  obtain ⟨hresult, hsink, -, -⟩ :=
    writeSource_delivers Sink.put h ⟨store, ({ closing := some (n, e) } : Sink ε)⟩ hstore
  intro out
  rw [hresult, hsink]
  by_cases hn : n < s.piecesOf.length
  · rw [if_pos hn, offerAll_refused n (e := e) (by simp) hn]
    exact ⟨rfl, List.nil_append _, by simp⟩
  · rw [if_neg hn, offerAll_taken]
    · exact ⟨rfl, List.nil_append _, Nat.zero_add _⟩
    · intro c hc
      obtain rfl := Option.some.inj hc
      simpa using hn

/-- The text of a source that has been defined. -/
theorem run_query_text {name : Text} (hs : session.defined.lookup name = some s)
    (h : s.Placed nodes) (hstore : session.store.Shown nodes) :
    (session.run (.query (.ref name) .text)).1.result = .ok (.text s.text) := by
  rw [run_query_ref hs]
  exact (textOf_renders h).answer Answer.text (hstore.of_cells_eq rfl (Nat.le_refl _))

/-- **Writing a source streams its text and stops at the first failure of the sink.**  After any run of
requests, a sink that never fails receives pieces none of which is empty, and which together are the text
of the source.  A sink that fails with an error once it has taken `n` pieces ends the writing with that
error if there are more: it has taken the first `n` and has been called once more.  Otherwise it receives
them all.  Either way, whatever is asked afterwards has the outcome that it has without the writing; only
the two queries that name what cells hold, an outline and the list of what a node holds, may show it. -/
theorem writeSource_streams {past : List Request} {name : Text} {s : Source}
    (hs : (runAll {} past).2.defined.lookup name = some s) :
    let session := (runAll {} past).2
    let chunks := session.received s
    (∀ c ∈ chunks, c ≠ []) ∧
      (session.run (.query (.ref name) .text)).1.result = .ok (.text chunks.flatten) ∧
      ∀ (ε : Type) (n : Nat) (e : ε),
        let out := outcome (writeSource Sink.put s) ⟨session.store, { closing := some (n, e) }⟩
        (if n < chunks.length then
          out.1 = .error e ∧ out.2.sink.written = chunks.take n ∧ out.2.sink.calls = n + 1
        else out.1 = .ok () ∧ out.2.sink.written = chunks ∧ out.2.sink.calls = chunks.length) ∧
        ∀ (later : List Request) (i : Nat) (r : Request), later[i]? = some r →
          r.showsMemory = false →
            (runAll ⟨out.2.store, session.defined⟩ later).1[i]? = (session.runAll later).1[i]? := by
  intro session chunks
  obtain ⟨nodes, hshown, hplaced⟩ := runAll_placed past
  have hsource : s.Placed nodes := hplaced s (mem_sourcesOf hs)
  have hchunks : chunks = s.piecesOf := received_eq hsource hshown
  refine ⟨?_, ?_, fun ε n e => ?_⟩
  · rw [hchunks]
    exact fun c hc => s.ne_nil_of_mem_piecesOf hc
  · rw [hchunks, Source.flatten_piecesOf]
    exact run_query_text hs hsource hshown
  · intro out
    constructor
    · rw [hchunks]
      exact writeSource_closing hsource hshown n e
    · intro later i r hi hr
      obtain ⟨-, -, hafter, halike⟩ :=
        writeSource_delivers Sink.put hsource
          ⟨session.store, ({ closing := some (n, e) } : Sink ε)⟩ hshown
      have hpeers : session.Peers ⟨out.2.store, session.defined⟩ :=
        ⟨rfl, nodes, ⟨hshown, hafter, halike⟩, hplaced⟩
      exact ((runAll_peers hpeers later).2 i r hi hr).symm

/-- The base of an edited source remembers its text by the time the sink fails, and a node behind the
failure does not come to. -/
theorem writeSource_streams_edited :
    let past : List Request := [
      .define "s" (.joined [.plain "", .edited (.kept (.file "abc" "f")) [⟨1, 2, "", none⟩],
        .kept (.plain "d")])]
    let session := (runAll {} past).2
    ∃ s, session.defined.lookup ("s" : Text) = some s ∧ session.received s = ["a", "c", "d"] ∧
      let out := outcome (writeSource Sink.put s)
        ⟨session.store, { closing := some (1, SinkError.closed) }⟩
      out.1 = .error .closed ∧ out.2.sink.written = ["a"] ∧ out.2.sink.calls = 2 ∧
        (runAll ⟨out.2.store, session.defined⟩ [.query (.ref "s") .size]).1[0]? =
          (session.runAll [.query (.ref "s") .size]).1[0]? := by
  intro past session
  obtain ⟨s, hs⟩ : ∃ s, session.defined.lookup ("s" : Text) = some s := ⟨_, rfl⟩
  have hreceived : session.received s = ["a", "c", "d"] := by
    obtain rfl := Option.some.inj hs
    decide +kernel
  obtain ⟨-, -, hfailing⟩ := writeSource_streams hs
  obtain ⟨hstopped, hlater⟩ := hfailing SinkError 1 .closed
  rw [show (runAll {} past).2.received s = _ from hreceived, if_pos (by decide)] at hstopped
  obtain ⟨hresult, hwritten, hcalls⟩ := hstopped
  exact ⟨s, hs, hreceived, hresult, hwritten, hcalls, hlater _ 0 _ rfl rfl⟩

end Session

end Provenance
