/-
# The map of joined leaves

A join of texts and files is mapped end to end: from the action that makes its source map, whatever is
remembered, to the origins that are found in the decoded map.

The main facts:

* `joinedMap_leaves` : joined leaves are mapped without memory;
* `joinedMap_places` : the source map of joined leaves gives each unit its own place.
-/
import Provenance.Proofs.Composition.Leaves
import Provenance.Proofs.Session.Meets
import Provenance.Session.Plan

namespace Provenance

/-! ## Leaves -/

/-- A text that comes from nowhere, or a file. -/
inductive Source.IsLeaf : Source → Prop where
  | plain (t : Text) : IsLeaf (.plain t)
  | file (t name : Text) : IsLeaf (.file t name)

/-- The result of a leaf: of any other source its text, with no origin. -/
def Source.leafResult : Source → Composition
  | .plain t => .plain t
  | .file t name => .file t name
  | s => .plain s.text

/-- Where a unit of a leaf stands in it, if the leaf is a file. -/
def Source.ownOrigin? : Source → Nat → Option OriginPosition
  | .file t name, offset => some (Composition.ownOrigin t name offset)
  | _, _ => none

namespace Source.IsLeaf

variable {s : Source}

theorem leafResult (h : s.IsLeaf) : s.leafResult.IsLeaf := by
  cases h with
  | plain t => exact .plain t
  | file t name => exact .file t name

theorem text_leafResult (h : s.IsLeaf) : s.leafResult.text = s.text := by
  cases h <;> simp only [Source.leafResult, text] <;> rfl

theorem originAtOffset_leafResult (h : s.IsLeaf) {p : Nat} (hp : p < s.text.length)
    (hexact : p ≤ Number.exactLimit) :
    s.leafResult.originAtOffset p = s.ownOrigin? p := by
  cases h with
  | plain t =>
    rw [text] at hp
    exact Composition.originAtOffset_plain t (Nat.le_of_lt hp)
  | file t name =>
    rw [text] at hp
    exact Composition.originAtOffset_file t name hp hexact

end Source.IsLeaf

namespace Session

open Source (textAll)

variable {children : List Source}

/-! ## No memory -/

/-- A walk passes leaves by. -/
theorem walkAll_leaves (limit : Number) (depth : Nat) (hleaves : ∀ s ∈ children, s.IsLeaf) :
    walkAll limit depth children = pure (children.map Source.leafResult) := by
  induction children with
  | nil => rw [walkAll]; rfl
  | cons s rest ih =>
    obtain ⟨hs, hrest⟩ := List.forall_mem_cons.mp hleaves
    have hfirst : walk limit depth s = pure s.leafResult := by
      cases hs with
      | plain t => exact funext (walk_plain limit depth t)
      | file t name => rw [walk]; rfl
    rw [walkAll, hfirst, ih hrest]
    rfl

theorem flattenAll_leaves (hleaves : ∀ s ∈ children, s.IsLeaf) :
    Source.flattenAll children = children := by
  induction children with
  | nil => rfl
  | cons s rest ih =>
    obtain ⟨hs, hrest⟩ := List.forall_mem_cons.mp hleaves
    have hparts : s.parts = [s] := by cases hs <;> rfl
    rw [Source.flattenAll, List.flatMap_cons, hparts, ← Source.flattenAll, ih hrest]
    rfl

/-- Joining some sources and asking for the source map of the whole. -/
def joinedMap (children : List Source) (options : OutputOptions) : Action (Option SourceMap) := do
  let s ← joinedNode children
  mapOf s options

/-- **Joined leaves are mapped without memory.** -/
theorem joinedMap_leaves (options : OutputOptions) (store : Store)
    (hleaves : ∀ s ∈ children, s.IsLeaf) :
    (outcome (joinedMap children options) store).1 =
      ((Composition.join (children.map Source.leafResult)).toMap options).mapError .map := by
  have hwalk : ∀ id store, compose options.limit (.joined id children) store =
      .ok (.join (children.map Source.leafResult)) store := by
    intro id store
    unfold compose
    rw [walk, walkAll_leaves options.limit 0 hleaves]
    rfl
  have hmap : ∀ id store, (outcome (mapOf (.joined id children) options) store).1 =
      ((Composition.join (children.map Source.leafResult)).toMap options).mapError .map := by
    intro id store
    unfold mapOf composedOf outcome
    simp only [bind, EStateM.bind, EStateM.adaptExcept, hwalk]
    cases (Composition.join (children.map Source.leafResult)).toMap options <;> rfl
  unfold joinedMap joinedNode
  rw [flattenAll_leaves hleaves]
  exact hmap store.nextId _

/-! ## The map -/

theorem text_join_leaves (hleaves : ∀ s ∈ children, s.IsLeaf) :
    (Composition.join (children.map Source.leafResult)).text = textAll children := by
  rw [Composition.text_join]
  induction children with
  | nil => rw [textAll]; rfl
  | cons s rest ih =>
    obtain ⟨hs, hrest⟩ := List.forall_mem_cons.mp hleaves
    rw [List.map_cons, List.flatMap_cons, ih hrest, hs.text_leafResult, textAll]

theorem isLeaf_of_mem_map (hleaves : ∀ s ∈ children, s.IsLeaf) :
    ∀ d ∈ children.map Source.leafResult, d.IsLeaf := by
  intro d hd
  obtain ⟨s, hs, rfl⟩ := List.mem_map.mp hd
  exact (hleaves s hs).leafResult

/-- The files among leaves are empty if those among their results are. -/
theorem file_mem_map_iff (hleaves : ∀ s ∈ children, s.IsLeaf) :
    (∀ t name, .file t name ∈ children.map Source.leafResult → t = []) ↔
      ∀ t name, .file t name ∈ children → t = [] := by
  constructor
  · intro h t name hfile
    exact h t name (List.mem_map_of_mem (f := Source.leafResult) hfile)
  · intro h t name hfile
    obtain ⟨s, hs, heq⟩ := List.mem_map.mp hfile
    cases hleaves s hs with
    | plain u =>
      -- a text lists no source
      have hnames := congrArg (fun c => c.sources.names) heq
      cases hnames
    | file u name' =>
      obtain rfl : u = t := congrArg Composition.text heq
      exact h u name' hs

/-- **The source map of joined leaves.**  There is none if and only if every file among them is empty.
Otherwise each unit of a file comes from where it stands in that file, and no other unit comes from
anywhere, unless the text of the map's entries is too long. -/
theorem joinedMap_places (hleaves : ∀ s ∈ children, s.IsLeaf)
    (hlength : (textAll children).length < 2 ^ 31) (store : Store) :
    let answer := (outcome (joinedMap children {}) store).1
    (answer = .ok none ↔ ∀ t name, .file t name ∈ children → t = []) ∧
    ((∃ t name, .file t name ∈ children ∧ t ≠ []) →
      ∃ mappings, (Composition.join (children.map Source.leafResult)).mappings.compact.HasText
          mappings ∧
        (mappings.length ≤ Text.maxLength →
          ∃ M table, answer = .ok (some M) ∧ MappingTable.decode M.mappings = .ok table ∧
            ∀ before child after, children = before ++ child :: after → ∀ p < child.text.length,
              let place := (textAll children).positionOf ((textAll before).length + p)
              M.positionIn table (place.line : Number) (place.column : Number) =
                child.ownOrigin? p) ∧
        (Text.maxLength < mappings.length → answer = .error (.map (.encode .textTooLong)))) := by
  intro answer
  have hanswer : answer = _ := joinedMap_leaves {} store hleaves
  have hresults := isLeaf_of_mem_map hleaves
  rw [hanswer]
  constructor
  · have htable : ∀ c : Composition, c.outputTable {} = c.mappings := fun c => rfl
    rw [mapError_eq_ok_iff, Composition.toMap_eq_none_iff, htable,
      Composition.exists_origin_join_iff hresults, file_mem_map_iff hleaves]
  · rintro ⟨t, name, hmem, ht⟩
    have hfile : ∃ t name, .file t name ∈ children.map Source.leafResult ∧ t ≠ [] :=
      ⟨t, name, List.mem_map_of_mem (f := Source.leafResult) hmem, ht⟩
    obtain ⟨mappings, htext, hfits, hlong⟩ := Composition.toMap_join_leaves hresults
      (by rw [text_join_leaves hleaves]; exact Nat.le_of_lt_succ hlength) hfile
    refine ⟨mappings, htext, fun hroom => ?_, fun htooLong => by rw [hlong htooLong]; rfl⟩
    obtain ⟨M, table, hM, htable, hplaces⟩ := hfits hroom
    refine ⟨M, table, by rw [hM]; rfl, htable, fun before child after hsplit p hp => ?_⟩
    subst hsplit
    have hchild : child.IsLeaf := hleaves child (by simp)
    have hbefore : ∀ s ∈ before, s.IsLeaf := fun s hs => hleaves s (by simp [hs])
    have hplace := hplaces (before.map Source.leafResult) child.leafResult
      (after.map Source.leafResult) (by simp) p (by rwa [hchild.text_leafResult])
    have hexact : p ≤ Number.exactLimit := by
      have htext : (textAll (before ++ child :: after)).length =
          (textAll before).length + child.text.length + (textAll after).length := by
        rw [Source.textAll_append, textAll, List.length_append, List.length_append, Nat.add_assoc]
      have : (2 : Nat) ^ 31 ≤ Number.exactLimit := by decide
      omega
    rwa [text_join_leaves hleaves, text_join_leaves hbefore,
      hchild.originAtOffset_leafResult hp hexact] at hplace

/-- Two files of one name stand around a text and an empty file. -/
theorem joinedMap_places_oneName :
    let children : List Source :=
      [.file "a\nb" "x.js", .plain "c\n", .file [] "y.js", .file "d\n" "x.js"]
    ∃ M table, (outcome (joinedMap children {}) ({} : Store)).1 = .ok (some M) ∧
      MappingTable.decode M.mappings = .ok table ∧
      M.positionIn table (1 : Nat) (0 : Nat) = some ⟨some "x.js", (1 : Nat), (0 : Nat), none⟩ ∧
      M.positionIn table (1 : Nat) (1 : Nat) = none ∧
      M.positionIn table (2 : Nat) (1 : Nat) = some ⟨some "x.js", (0 : Nat), (1 : Nat), none⟩ := by
  intro children
  have hleaves : ∀ s ∈ children, s.IsLeaf := by
    simp only [children, List.forall_mem_cons]
    exact ⟨.file _ _, .plain _, .file _ _, .file _ _, by simp⟩
  have htext : textAll children = "a\nbc\nd\n" := by decide +kernel
  have hplaced := joinedMap_places hleaves (by rw [htext]; decide +kernel) {}
  obtain ⟨mappings, hmappings, hfits, -⟩ :=
    hplaced.2 ⟨"a\nb", "x.js", by simp [children], by decide +kernel⟩
  have hwritten : (Composition.join (children.map Source.leafResult)).mappings.compact.encode =
      .ok "AAAA;AACA,C;AADA" := by decide +kernel
  obtain rfl := hmappings.eq_of_encode hwritten
  obtain ⟨M, table, hM, htable, hplaces⟩ := hfits (by decide +kernel)
  have hfound : ∀ before child after p (place : Text.Position),
      children = before ++ child :: after → p < child.text.length →
      (textAll children).positionOf ((textAll before).length + p) = place →
      M.positionIn table (place.line : Number) (place.column : Number) = child.ownOrigin? p := by
    rintro before child after p place hsplit hp rfl
    exact hplaces before child after hsplit p hp
  refine ⟨M, table, hM, htable, ?_, ?_, ?_⟩
  · exact (hfound [] _ _ 2 ⟨1, 0⟩ rfl (by decide +kernel) (by decide +kernel)).trans
      (by decide +kernel)
  · exact hfound [.file "a\nb" "x.js"] _ _ 0 ⟨1, 1⟩ rfl (by decide +kernel) (by decide +kernel)
  · exact (hfound (children.take 3) _ _ 1 ⟨2, 1⟩ rfl (by decide +kernel) (by decide +kernel)).trans
      (by decide +kernel)

end Session

end Provenance
