/-
# One text

Whatever has been asked of a session before, and whichever nodes remember something, all answers about
a source agree on one text: what the source reads as.

The main facts:

* `query_shows_rendering` : in every run, each query shows what its source reads as.
-/
import Provenance.Proofs.Digest.Repair
import Provenance.Proofs.Session.Constructed
import Provenance.Proofs.Text.Encoding
import Provenance.Proofs.Tree.Rendering

namespace Provenance

/-- The result of a query shows a text: the text itself, its UTF-8 bytes, or their number; or it fails,
where composing can fail, and otherwise comes with the text.  A surrogate without a partner, which is
what is left of a pair that an edit cuts through, is encoded as the replacement character. -/
def Query.Shows (t : Text) : Query → Except Fault Answer → Prop
  | .text, result => result = .ok (.text t)
  | .size, result =>
    ∃ str : String, Text.ofString str = t.repair ∧ result = .ok (.size str.utf8ByteSize)
  | .buffer, result =>
    ∃ str : String, Text.ofString str = t.repair ∧ result = .ok (.buffer str.toUTF8.data.toList)
  | .compose _, result => ∀ answer, result = .ok answer → ∃ c, answer = .composed c ∧ c.text = t
  | .textAndMap _, result => ∀ answer, result = .ok answer → ∃ m, answer = .textAndMap t m
  | .write _, _ | .map _, _ | .positions _ _, _ | .contentHash, _ | .outline _, _ | .held, _ => True

/-- The bytes of a text are those of a string. -/
theorem Text.exists_string_of_repair (t : Text) :
    ∃ str : String, ofString str = t.repair ∧ t.utf8 = str.toUTF8.data.toList := by
  obtain ⟨str, hstr⟩ := exists_ofString (wellFormed_repair t)
  exact ⟨str, hstr, by rw [← utf8_ofString, hstr, utf8_repair]⟩

/-- A query shows what its source reads as if it comes with the text of the source, and is answered as it
is without memory where it does not compose the source. -/
theorem Source.shows_rendering {s : Source} (hs : s.Constructed) {q : Query}
    {result : Except Fault Answer} (htext : ∀ v, result = .ok v → q.ComesWith s.text v)
    (hresult : q.composes = false → ∀ answer, s.answer q = some answer → result = answer) :
    q.Shows s.rendering result := by
  rw [← text_eq_rendering hs]
  obtain ⟨str, hstr, hbytes⟩ := Text.exists_string_of_repair s.text
  cases q with
  | text => exact hresult rfl _ rfl
  | size =>
    refine ⟨str, hstr, (hresult rfl _ rfl).trans ?_⟩
    rw [size, bytes, hbytes]
    rfl
  | buffer =>
    refine ⟨str, hstr, (hresult rfl _ rfl).trans ?_⟩
    rw [bytes, hbytes]
  | compose options => exact htext
  | textAndMap options => exact htext
  | _ => trivial

namespace Session

/-- **All answers show one text.**  In every run of well-formed requests, in any order and on sources
with nodes that remember anywhere in them, the answer to a query shows what its source reads as, as long
as no two streams of bytes that have been hashed in the run share a digest. -/
theorem query_shows_rendering {past later : List Request} {plan : Plan} {q : Query}
    (hformed : ∀ r ∈ past ++ .query plan q :: later, r.Formed)
    (hfree : ContentHash.CollisionFree (runAll {} (past ++ .query plan q :: later)).2.store.hashed)
    {s : Source} {store : Store}
    (hbuild : build (runAll {} past).2.defined plan { (runAll {} past).2.store with notices := [] } =
      .ok s store) :
    ∃ result, ((runAll {} (past ++ .query plan q :: later)).1[past.length]?).map Outcome.result =
        some result ∧ q.Shows s.rendering result := by
  obtain ⟨hs, result, hrun, htext, hanswer⟩ := query_of_runAll hformed hfree hbuild
  refine ⟨result, hrun, Source.shows_rendering hs htext fun hq answer => ?_⟩
  exact hanswer (fun hcomposes => absurd hcomposes (by rw [hq]; decide)) answer

/-- A remembered source is edited in the middle of a surrogate pair. -/
theorem query_shows_rendering_cutPair :
    let past : List Request := [
      .define "k" (.kept (.joined [.kept (.file "a😀\n" "a.js"), .plain "x"])),
      .query (.ref "k") .size, .clear .both]
    ∃ str : String, Text.ofString str = "a\ufffd\nx" ∧
      ((runAll {} (past ++ [.query (.edited (.ref "k") [⟨2, 3, "", none⟩]) .buffer])).1[3]?).map
        Outcome.result = some (.ok (.buffer str.toUTF8.data.toList)) := by
  intro past
  have hformed : ∀ r ∈ past ++ [.query (.edited (.ref "k") [⟨2, 3, "", none⟩]) .buffer],
      r.Formed := by
    simp only [past, List.cons_append, List.nil_append, List.forall_mem_cons]
    refine ⟨.kept (.joined ?_), .ref "k", trivial, .edited (.ref "k") ?_, by simp⟩
    · simp only [List.forall_mem_cons]
      exact ⟨.kept (.file (by decide +kernel) (by decide +kernel)), .plain rfl, by simp⟩
    · exact List.forall_mem_singleton.mpr ⟨rfl, by simp⟩
  have hfree : ContentHash.CollisionFree (runAll {} (past ++
      [.query (.edited (.ref "k") [⟨2, 3, "", none⟩]) .buffer])).2.store.hashed :=
    ContentHash.collisionFree_of_forall_eq [] (by decide +kernel)
  obtain ⟨result, hresult, str, hstr, rfl⟩ := query_shows_rendering hformed hfree rfl
  exact ⟨str, hstr.trans (by decide +kernel), hresult⟩

end Session

end Provenance
