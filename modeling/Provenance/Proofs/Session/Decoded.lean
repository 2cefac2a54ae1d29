/-
# Decoded tables that are kept

Tables are kept under content hashes, and texts with surrogates that stand alone can share theirs with
other texts.  A text that decodes is ASCII, and only such texts have their tables kept, so that a table
is never found for a text that it does not belong to.

The main facts:

* `entries_of_decodeKept_eq_error` : a text that does not decode adds no table;
* `decode_kept_invisible` : in every run, decoding a text gives what it gives without memory.
-/
import Provenance.Proofs.Session.Constructed

namespace Provenance.Session

variable {hashed : List (List Text)}

/-! ## One text -/

/-- The hash of a text, and then its table from the cache or a new one. -/
theorem decodeKept_eq (t : Text) (s : Store) :
    decodeKept t s =
      Cache.fetch Store.decodePart (.ofFields [t]) (settle id (MappingTable.decode t))
        { s with hashed := [t] :: s.hashed } := rfl

/-- **A text that does not decode adds no table.** -/
theorem entries_of_decodeKept_eq_error {t : Text} {s u : Store} {e : DecodeError}
    (h : decodeKept t s = .error e u) : u.decodeCache.entries = s.decodeCache.entries := by
  rw [decodeKept_eq, Cache.fetch] at h
  cases hfound : (Store.decodePart.get { s with hashed := [t] :: s.hashed }).get?
      (ContentHash.ofFields [t]) with
  | some table =>
    rw [hfound] at h
    cases h
  | none =>
    rw [hfound] at h
    cases hdecode : MappingTable.decode t with
    | ok table =>
      rw [hdecode] at h
      cases h
    | error e' =>
      rw [hdecode] at h
      cases h
      rfl

/-- A request to decode a text is answered by decoding it with memory. -/
theorem run_decode_eq (session : Session) (t : Text) :
    (session.run (.decode t)).1.result =
        ((outcome (decodeKept t) { session.store with notices := [] }).1.mapError Fault.decode).map
          .table ∧
      (session.run (.decode t)).2 =
        ⟨(outcome (decodeKept t) { session.store with notices := [] }).2, session.defined⟩ := by
  unfold Session.run
  simp only [perform, outcome, bind, EStateM.bind, EStateM.adaptExcept]
  cases decodeKept t { session.store with notices := [] } <;> exact ⟨rfl, rfl⟩

/-- A request that fails adds no table. -/
theorem entries_run_decode_of_error {session : Session} {t : Text} {e : Fault}
    (h : (session.run (.decode t)).1.result = .error e) :
    (session.run (.decode t)).2.store.decodeCache.entries = session.store.decodeCache.entries := by
  obtain ⟨hresult, hsession⟩ := run_decode_eq session t
  rw [hsession]
  rw [hresult] at h
  unfold outcome at h ⊢
  cases hdecode : decodeKept t { session.store with notices := [] } with
  | ok table u =>
    rw [hdecode] at h
    cases h
  | error e' u =>
    have hentries := entries_of_decodeKept_eq_error hdecode
    exact hentries

/-! ## Runs -/

/-- **Decoding with faithful memory** gives what it gives without. -/
theorem result_run_decode (hfree : ContentHash.CollisionFree hashed) {session : Session}
    (h : Backed hashed (sourcesOf session.defined) session.store) {t : Text}
    (hlog : (session.run (.decode t)).2.store.hashed ⊆ hashed) :
    (session.run (.decode t)).1.result =
      ((MappingTable.decode t).mapError Fault.decode).map .table := by
  obtain ⟨nodes, hserves, -⟩ := (backed_upheld hfree).start h
  obtain ⟨hresult, hsession⟩ := run_decode_eq session t
  obtain ⟨-, -, hdecode⟩ := decodeKept_yields hfree t _ hserves
  rw [hsession] at hlog
  rw [hresult, hdecode hlog]

/-- Each table that is kept is that of a text that decodes. -/
theorem exists_decode_of_get? (hfree : ContentHash.CollisionFree hashed) {past : List Request}
    (hformed : ∀ r ∈ past, r.Formed) (hlog : (runAll {} past).2.store.hashed ⊆ hashed)
    {key : ContentHash} {table : MappingTable}
    (h : (runAll {} past).2.store.decodeCache.get? key = some table) :
    ∃ t, key = .ofFields [t] ∧ MappingTable.decode t = .ok table := by
  obtain ⟨-, nodes, hserves, -⟩ := runAll_backed hfree (backed_new hashed) hformed
  obtain ⟨t, -, hkey, hdecode⟩ := (hserves.faithful hlog).decoded key table h
  exact ⟨t, hkey, hdecode⟩

/-- **The memory of decoded tables does not show.**  In every run of well-formed requests, with texts of
any units to decode, whether they are well formed or not, and with the caches cleared at any moment: a
request to decode a text gives the table that the text has, or fails with the error that the text has, as
long as no two streams of bytes that have been hashed in the run share a digest.  A request that fails
leaves the tables that are kept as they are, and each table that is kept at any moment is that of a text
that decodes. -/
theorem decode_kept_invisible {rs : List Request} (hformed : ∀ r ∈ rs, r.Formed)
    (hfree : ContentHash.CollisionFree (runAll {} rs).2.store.hashed) :
    (∀ past t later, rs = past ++ .decode t :: later →
      ((runAll {} rs).1[past.length]?).map Outcome.result =
        some (((MappingTable.decode t).mapError Fault.decode).map .table)) ∧
    (∀ past t e, ((runAll {} past).2.run (.decode t)).1.result = .error e →
      ((runAll {} past).2.run (.decode t)).2.store.decodeCache.entries =
        (runAll {} past).2.store.decodeCache.entries) ∧
    ∀ past key table, past <+: rs → (runAll {} past).2.store.decodeCache.get? key = some table →
      ∃ t, key = .ofFields [t] ∧ MappingTable.decode t = .ok table := by
  refine ⟨?_, fun past t e => entries_run_decode_of_error, ?_⟩
  · rintro past t later rfl
    obtain ⟨hsound, hlog⟩ := sound_of_runAll hformed hfree
    rw [getElem?_runAll, Option.map_some, result_run_decode hfree hsound.1 hlog]
  · rintro past key table ⟨later, rfl⟩ hfound
    obtain ⟨hpast, hlater⟩ := List.forall_mem_append.mp hformed
    obtain ⟨-, hbacked⟩ := runAll_backed hfree (backed_new _) hpast
    obtain ⟨hlog, -⟩ := runAll_backed hfree hbacked hlater
    refine exists_decode_of_get? hfree hpast (fun fields hf => ?_) hfound
    rw [runAll_append]
    exact hlog hf

/-- A lone surrogate has the content hash of the replacement character; neither decodes, and what is kept
of another text is not found for them. -/
theorem decode_kept_invisible_surrogate :
    let rs : List Request := [.decode [0xD800], .decode "\ufffd", .decode "AAAA", .clear .decoded,
      .decode "AAAA", .decode [0xD800]]
    ContentHash.ofFields [[0xD800]] = ContentHash.ofFields ["\ufffd"] ∧
      ((runAll {} rs).1[4]?).map Outcome.result =
        some (((MappingTable.decode "AAAA").mapError Fault.decode).map .table) ∧
      ((runAll {} rs).1[5]?).map Outcome.result =
        some (((MappingTable.decode [0xD800]).mapError Fault.decode).map .table) := by
  intro rs
  have hformed : ∀ r ∈ rs, r.Formed := by simp [rs, Request.Formed]
  have hfree : ContentHash.CollisionFree (runAll {} rs).2.store.hashed := by
    unfold ContentHash.CollisionFree
    decide +kernel
  obtain ⟨hdecode, -, -⟩ := decode_kept_invisible hformed hfree
  refine ⟨?_, ?_, ?_⟩
  · exact ContentHash.ofFields_eq_of_stream_eq (by decide +kernel)
  · exact hdecode [.decode [0xD800], .decode "\ufffd", .decode "AAAA", .clear .decoded] "AAAA"
      [.decode [0xD800]] rfl
  · exact hdecode [.decode [0xD800], .decode "\ufffd", .decode "AAAA", .clear .decoded,
      .decode "AAAA"] [0xD800] [] rfl

end Provenance.Session
