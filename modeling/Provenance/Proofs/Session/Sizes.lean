/-
# Sizes of joined sources

Sources that are joined have as many bytes together as they have by themselves, but for two bytes less
for each surrogate pair that is put together: where the text of one ends in the first half of a pair, and
that of the next one that is not empty begins with the second.  The sizes are the same however the
sources are put together, and whatever the cells of their nodes have of them.

The main facts:

* `Source.size_joined` : the size of a joined source, from those of the sources it is joined from;
* `sizes_joined` : what a session answers for it.
-/
import Provenance.Proofs.Session.Peers
import Provenance.Proofs.Text.Joined

namespace Provenance

/-! ## Sizes -/

namespace Source

/-- Sources that are joined already may be taken apart. -/
theorem textAll_flattenAll (ss : List Source) : textAll (flattenAll ss) = textAll ss := by
  induction ss with
  | nil => rfl
  | cons s rest ih =>
    have hparts : textAll s.parts = s.text := by
      cases s with
      | joined id children => rw [parts, text]
      | _ => exact List.append_nil _
    rw [flattenAll, List.flatMap_cons, textAll_append, hparts, textAll]
    exact congrArg _ ih

/-- **The size of a joined source** is the sum of those of the sources it is joined from, but for two
bytes of each surrogate pair that is put together. -/
theorem size_joined (id : NodeId) (children : List Source) :
    (joined id (flattenAll children)).size + 2 * Text.splitPairs (children.map text) =
      (children.map size).sum := by
  have hbytes := Text.length_utf8_flatten (children.map text)
  rw [flatten_map_text, List.map_map] at hbytes
  unfold size bytes
  rw [text, textAll_flattenAll]
  exact hbytes

end Source

namespace Session

/-! ## Answers -/

variable {nodes : NodeId → Option Source}

theorem ask_text {s : Source} (h : s.Placed nodes) {store : Store} (hstore : store.Shown nodes) :
    (outcome (ask s .text) store).1 = .ok (.text s.text) :=
  (textOf_renders h).answer Answer.text hstore

theorem ask_size {s : Source} (h : s.Placed nodes) {store : Store} (hstore : store.Shown nodes) :
    (outcome (ask s .size) store).1 = .ok (.size s.size) :=
  (sizeOf_renders h).answer Answer.size hstore

theorem ask_buffer {s : Source} (h : s.Placed nodes) {store : Store} (hstore : store.Shown nodes) :
    (outcome (ask s .buffer) store).1 = .ok (.buffer s.bytes) :=
  (bufferOf_renders h).answer Answer.buffer hstore

/-- Sources that have been defined are built as they are. -/
theorem buildAll_refs {defined : Definitions} {names : List Text} {children : List Source}
    (h : children.map some = names.map fun name => defined.lookup name) (store : Store) :
    buildAll defined (names.map Plan.ref) store = .ok children store := by
  induction names generalizing children with
  | nil =>
    rw [List.map_eq_nil_iff.mp h]
    rfl
  | cons name rest ih =>
    cases children with
    | nil => cases h
    | cons child others =>
      obtain ⟨hchild, hothers⟩ := List.cons.inj h
      simp only [List.map_cons, buildAll, build, ← hchild, bind, EStateM.bind, pure, EStateM.pure,
        ih hothers]

/-- What a session answers about sources that have been defined, one by one. -/
theorem run_query_refs {session : Session} {names : List Text} {children : List Source}
    (h : children.map some = names.map fun name => session.defined.lookup name) {q : Query}
    {answer : Source → Answer} (hask : ∀ s ∈ children,
      (outcome (ask s q) { session.store with notices := [] }).1 = .ok (answer s)) :
    names.map (fun name => (session.run (.query (.ref name) q)).1.result) =
      children.map fun s => .ok (answer s) := by
  induction names generalizing children with
  | nil =>
    rw [List.map_eq_nil_iff.mp h]
    rfl
  | cons name rest ih =>
    cases children with
    | nil => cases h
    | cons child others =>
      obtain ⟨hchild, hothers⟩ := List.cons.inj h
      obtain ⟨hfirst, hrest⟩ := List.forall_mem_cons.mp hask
      rw [List.map_cons, List.map_cons, run_query_ref hchild.symm, hfirst, ih hothers hrest]

/-- What a session answers about sources that have been defined, joined. -/
theorem run_query_joined {session : Session} {names : List Text} {children : List Source}
    (h : children.map some = names.map fun name => session.defined.lookup name) (q : Query) :
    (session.run (.query (.joined (names.map .ref)) q)).1.result =
      (outcome (ask (.joined session.store.nextId (Source.flattenAll children)) q)
        { session.store with notices := [], nextId := session.store.nextId + 1 }).1 := by
  refine (run_query_eq ?_ q).1
  simp only [build, bind, EStateM.bind, buildAll_refs h]
  rfl

/-- **Sizes add up where sources are joined, but for split pairs.**  After any run of requests, the size
of joined sources is the sum of their sizes, but for two bytes for each place where the text of one ends
in a high surrogate and that of the next one that is not empty begins with a low one; and it is the
number of their bytes. -/
theorem sizes_joined {past : List Request} {names : List Text}
    (hnames : ∀ name ∈ names, ∃ s, (runAll {} past).2.defined.lookup name = some s) :
    let session := (runAll {} past).2
    let result := fun (plan : Plan) (q : Query) => (session.run (.query plan q)).1.result
    ∃ (texts : List Text) (sizes : List Nat) (n : Nat) (bytes : List UInt8),
      names.map (fun name => result (.ref name) .text) = texts.map (fun t => .ok (.text t)) ∧
      names.map (fun name => result (.ref name) .size) = sizes.map (fun n => .ok (.size n)) ∧
      result (.joined (names.map .ref)) .size = .ok (.size n) ∧
      result (.joined (names.map .ref)) .buffer = .ok (.buffer bytes) ∧
      n + 2 * Text.splitPairs texts = sizes.sum ∧ n = bytes.length := by
  intro session result
  obtain ⟨nodes, hshown, hplaced⟩ := runAll_placed past
  obtain ⟨children, hchildren, hlookup⟩ : ∃ children : List Source,
      (∀ s ∈ children, s.Placed nodes) ∧
        children.map some = names.map fun name => session.defined.lookup name := by
    refine exists_map_eq fun found hfound => ?_
    obtain ⟨name, hname, rfl⟩ := List.mem_map.mp hfound
    obtain ⟨s, hs⟩ := hnames name hname
    exact ⟨s, hplaced s (mem_sourcesOf hs), hs.symm⟩
  have hjoined : (Source.joined session.store.nextId (Source.flattenAll children)).Placed nodes :=
    .joined (placed_flattenAll hchildren)
  have hstore : ({ session.store with notices := [], nextId := session.store.nextId + 1 } : Store).Shown
      nodes := hshown.of_cells_eq rfl (Nat.le_succ _)
  have hstart : ({ session.store with notices := [] } : Store).Shown nodes :=
    hshown.of_cells_eq rfl (Nat.le_refl _)
  refine ⟨children.map Source.text, children.map Source.size, _, _, ?_, ?_,
    (run_query_joined hlookup _).trans (ask_size hjoined hstore),
    (run_query_joined hlookup _).trans (ask_buffer hjoined hstore), Source.size_joined _ _, rfl⟩
  · rw [List.map_map]
    exact run_query_refs hlookup fun s hs => ask_text (hchildren s hs) hstart
  · rw [List.map_map]
    exact run_query_refs hlookup fun s hs => ask_size (hchildren s hs) hstart

/-- A pair is split between a source that remembers and one with an edit, which stands behind an empty
one; a second copy of the first source has nothing behind it. -/
theorem sizes_joined_split :
    let past : List Request := [.define "a" (.kept (.plain [0x61, 0xD83D])), .define "e" (.plain ""),
      .define "b" (.edited (.joined [.plain "-", .plain [0xDE00, 0x78]]) [⟨0, 1, "", none⟩]),
      .query (.ref "a") .text]
    let names : List Text := ["a", "e", "b", "a"]
    let session := (runAll {} past).2
    (∀ name ∈ names, ∃ s, session.defined.lookup name = some s) ∧
      ∃ (texts : List Text) (sizes : List Nat) (n : Nat) (bytes : List UInt8),
        Text.splitPairs texts = 1 ∧ sizes = [4, 0, 4, 4] ∧ n = 10 ∧
        (session.run (.query (.joined (names.map .ref)) .size)).1.result = .ok (.size n) ∧
        (session.run (.query (.joined (names.map .ref)) .buffer)).1.result = .ok (.buffer bytes) ∧
        n + 2 * Text.splitPairs texts = sizes.sum ∧ n = bytes.length := by
  intro past names session
  have hnames : ∀ name ∈ names, ∃ s, session.defined.lookup name = some s := by
    simp only [names, List.forall_mem_cons]
    exact ⟨⟨_, rfl⟩, ⟨_, rfl⟩, ⟨_, rfl⟩, ⟨_, rfl⟩, by simp⟩
  obtain ⟨texts, sizes, n, bytes, htexts, hsizes, hsize, hbuffer, hadd, hlength⟩ :=
    sizes_joined hnames
  have heach : names.map (fun name => (session.run (.query (.ref name) .text)).1.result) =
      List.map (fun t => .ok (.text t)) [[0x61, 0xD83D], [], [0xDE00, 0x78], [0x61, 0xD83D]] := by
    decide +kernel
  have hcounts : names.map (fun name => (session.run (.query (.ref name) .size)).1.result) =
      List.map (fun n => .ok (.size n)) [4, 0, 4, 4] := by decide +kernel
  have hall : (session.run (.query (.joined (names.map .ref)) .size)).1.result = .ok (.size 10) := by
    decide +kernel
  have htextsEq := List.map_injective_iff.mpr (fun s t h => by cases h; rfl) (htexts.symm.trans heach)
  have hsizesEq := List.map_injective_iff.mpr (fun s t h => by cases h; rfl) (hsizes.symm.trans hcounts)
  obtain rfl : n = 10 := by
    cases hsize.symm.trans hall
    rfl
  refine ⟨hnames, texts, sizes, 10, bytes, ?_, hsizesEq, rfl, hall, hbuffer, hadd, hlength⟩
  rw [htextsEq]
  decide +kernel

end Session

end Provenance
