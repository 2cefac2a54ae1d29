/-
# Nested joined sources

A joined source that is kept from being flattened, because it is remembered, is composed as if its parts
stood in its place.  There are two exceptions, both about a source without a text in the middle of a
line: a joined source without any parts at the end ends what goes on there, and what is mapped at the
start of the inner text hides a boundary that the flattened parts have.

The main facts:

* `mappedBy?_end_of_sources` : where a line starts, nothing goes on over it, if no source is mapped at its
  end;
* `compositionAt_nested` : nesting joined sources changes no result.
-/
import Provenance.Proofs.Composition.Nested
import Provenance.Proofs.Tree.Wrappers

namespace Provenance.Source

open Provenance.Composition (MappedAtEnd)

variable {limit : Number} {depth : Nat} {s : Source} {xs ys zs : List Source}

theorem Constructed.parts (hs : s.Constructed) : ∀ t ∈ s.parts, t.Constructed := by
  cases hs with
  | joined hchildren => exact hchildren
  | plain t => simpa [Source.parts] using Constructed.plain t
  | file t name => simpa [Source.parts] using Constructed.file t name
  | generated hdecode hcheck hinputs =>
    simpa [Source.parts] using Constructed.generated hdecode hcheck hinputs
  | edited hbase hcheck => simpa [Source.parts] using Constructed.edited hbase hcheck
  | kept hchild => simpa [Source.parts] using Constructed.kept hchild

theorem constructed_flattenAll (h : ∀ s ∈ xs, s.Constructed) : ∀ t ∈ flattenAll xs, t.Constructed := by
  intro t ht
  obtain ⟨s, hs, ht⟩ := List.mem_flatMap.mp ht
  exact (h s hs).parts t ht

/-- The results of constructed sources are proper. -/
theorem proper_of_forall₂ {cs : List Composition} (hxs : ∀ s ∈ xs, s.Constructed)
    (h : List.Forall₂ (fun s c => compositionAt limit depth s = .ok c) xs cs) :
    ∀ c ∈ cs, c.Proper := by
  intro c hc
  obtain ⟨s, hs, hsc⟩ := exists_mem_of_forall₂ h hc
  exact (compositionAt_proper (hxs s hs) hsc).1

/-! ## Ends of sources -/

/-- The results of flattened sources are those of the sources, part by part. -/
theorem exists_groups {cs : List Composition} (hxs : ∀ s ∈ xs, s.Constructed)
    (h : List.Forall₂ (fun s c => compositionAt limit depth s = .ok c) (flattenAll xs) cs) :
    ∃ groups, groups.flatten = cs ∧ List.Forall₂
      (fun s g => (∀ d ∈ g, d.Proper) ∧ compositionAt limit depth s = .ok (.join g)) xs groups := by
  induction xs generalizing cs with
  | nil =>
    cases h
    exact ⟨[], rfl, .nil⟩
  | cons s rest ih =>
    obtain ⟨hs, hrest⟩ := List.forall_mem_cons.mp hxs
    rw [flattenAll, List.flatMap_cons] at h
    obtain ⟨g, ds, rfl, hg, hds⟩ := exists_append_of_forall₂ h
    obtain ⟨groups, rfl, hgroups⟩ := ih hrest hds
    exact ⟨g :: groups, rfl,
      .cons ⟨proper_of_forall₂ hs.parts hg, compositionAt_of_parts hs hg⟩ hgroups⟩

/-- Where a line starts, nothing goes on over it, if no source is mapped at its end. -/
theorem mappedBy?_end_of_sources {cs : List Composition} (hxs : ∀ s ∈ xs, s.Constructed)
    (hends : ∀ x ∈ xs, ∀ r, compositionAt limit depth x = .ok r → ¬ r.MappedAtEnd)
    (h : List.Forall₂ (fun s c => compositionAt limit depth s = .ok c) (flattenAll xs) cs)
    (hcolumn : (Composition.join cs).text.stop.column = 0) :
    Mark.mappedBy? (Composition.join cs).text (Composition.joinMarks [] cs)
      (Composition.join cs).text.length = none := by
  obtain ⟨groups, rfl, hgroups⟩ := exists_groups hxs h
  refine Composition.mappedBy?_end_of_lineStart (fun g hg => ?_) hcolumn
  obtain ⟨x, hx, hproper, hresult⟩ := exists_mem_of_forall₂ hgroups hg
  exact ⟨hproper, hends x hx _ hresult⟩

/-! ## Composing nested sources -/

theorem compositionsAt_append (limit : Number) (depth : Nat) (xs ys : List Source) :
    compositionsAt limit depth (xs ++ ys) =
      compositionsAt limit depth xs >>= fun cs =>
        (compositionsAt limit depth ys).map fun ds => cs ++ ds := by
  rw [compositionsAt_eq_mapM, compositionsAt_eq_mapM, compositionsAt_eq_mapM, List.mapM_append]
  rfl

/-- **Nesting joined sources changes no result**, whether composing succeeds or not.  No source before the
inner one may be mapped at its very end, and no part without a text of the inner one may be mapped; if
there are neither inner parts nor sources behind, the end of what stands before must come from
nowhere. -/
theorem compositionAt_nested (id inner wrapper : NodeId) (hxs : ∀ s ∈ xs, s.Constructed)
    (hys : ∀ s ∈ ys, s.Constructed) (hzs : ∀ s ∈ zs, s.Constructed)
    (hends : ∀ x ∈ xs, ∀ r, compositionAt limit depth x = .ok r → ¬ r.MappedAtEnd)
    (hempty : ∀ y ∈ flattenAll ys, ∀ r, compositionAt limit depth y = .ok r → r.text = [] →
      ¬ r.MappedAtEnd)
    (hnone : flattenAll (ys ++ zs) = [] → ∀ r,
      compositionAt limit depth (joined id (flattenAll xs)) = .ok r →
        r.originAtOffset r.text.length = none) :
    compositionAt limit depth
        (joined id (flattenAll (xs ++ kept wrapper (joined inner (flattenAll ys)) :: zs))) =
      compositionAt limit depth (joined id (flattenAll (xs ++ ys ++ zs))) := by
  have hinner : compositionsAt limit depth [kept wrapper (joined inner (flattenAll ys))] =
      (compositionsAt limit depth (flattenAll ys)).map fun cs => [.join cs] := by
    rw [compositionsAt, compositionAt_kept, compositionAt, compositionsAt]
    cases compositionsAt limit depth (flattenAll ys) <;> rfl
  have hparts : flattenAll (xs ++ kept wrapper (joined inner (flattenAll ys)) :: zs) =
      flattenAll xs ++ ([kept wrapper (joined inner (flattenAll ys))] ++ flattenAll zs) := by
    rw [flattenAll_append]
    rfl
  rw [hparts, flattenAll_append, flattenAll_append, List.append_assoc, compositionAt, compositionAt,
    compositionsAt_append, compositionsAt_append, compositionsAt_append, compositionsAt_append,
    hinner]
  -- the first part that cannot be composed is the same
  cases hcx : compositionsAt limit depth (flattenAll xs) with
  | error e => rfl
  | ok cx =>
    cases hcy : compositionsAt limit depth (flattenAll ys) with
    | error e => rfl
    | ok cy =>
      cases hcz : compositionsAt limit depth (flattenAll zs) with
      | error e => rfl
      | ok cz =>
        have hx := compositionsAt_eq_ok hcx
        have hy := compositionsAt_eq_ok hcy
        have hz := compositionsAt_eq_ok hcz
        have hxproper := proper_of_forall₂ (constructed_flattenAll hxs) hx
        have hjoin := Composition.join_nested hxproper
          (proper_of_forall₂ (constructed_flattenAll hys) hy)
          (proper_of_forall₂ (constructed_flattenAll hzs) hz) (fun c hc htext => ?_) fun h => ?_
        · rw [List.append_assoc] at hjoin
          exact congrArg Except.ok hjoin
        · obtain ⟨y, hmem, hyc⟩ := exists_mem_of_forall₂ hy hc
          exact hempty y hmem c hyc htext
        · rcases h with hnil | hcolumn
          · obtain ⟨rfl, rfl⟩ := List.append_eq_nil_iff.mp hnil
            have hflat : flattenAll (ys ++ zs) = [] := by
              rw [flattenAll_append, List.forall₂_nil_right_iff.mp hy,
                List.forall₂_nil_right_iff.mp hz]
              rfl
            have horigin := hnone hflat _ (compositionAt_joined.mpr ⟨cx, hcx, rfl⟩)
            rw [Composition.originAtOffset_of_normalForm rfl (Composition.markedBy_join hxproper)
              (Nat.le_refl _)] at horigin
            exact Mark.mappedBy?_eq_none_iff_trace.mpr horigin
          · exact mappedBy?_end_of_sources hxs hends hx hcolumn

/-- A file and a text that comes from nowhere may be joined on their own first, between two files. -/
theorem compositionAt_nested_files :
    let xs := [file "a\n" "a.js"]
    let ys := [file "b" "b.js", plain "c"]
    let zs := [file "d" "a.js"]
    ∃ c, compositionAt (32 : Nat) 0 (joined 1 (flattenAll (xs ++ ys ++ zs))) = .ok c ∧
      compositionAt (32 : Nat) 0
        (joined 1 (flattenAll (xs ++ kept 2 (joined 3 (flattenAll ys)) :: zs))) = .ok c ∧
      c.mappings = [⟨0, 0, some ⟨0, 0, 0, none⟩⟩, ⟨1, 0, some ⟨1, 0, 0, none⟩⟩, ⟨1, 1, none⟩,
        ⟨1, 2, some ⟨0, 0, 0, none⟩⟩] := by
  intro xs ys zs
  have hfile : ∀ t name r, compositionAt (32 : Nat) 0 (file t name) = .ok r →
      r = Composition.file t name := fun t name r h =>
    (Except.ok.inj ((compositionAt_file (32 : Nat) 0 t name).symm.trans h)).symm
  have hnested : compositionAt (32 : Nat) 0
      (joined 1 (flattenAll (xs ++ kept 2 (joined 3 (flattenAll ys)) :: zs))) =
        compositionAt (32 : Nat) 0 (joined 1 (flattenAll (xs ++ ys ++ zs))) := compositionAt_nested 1 3 2
    (by simpa [xs] using Constructed.file _ _)
    (by simpa [ys] using ⟨Constructed.file _ _, Constructed.plain _⟩)
    (by simpa [zs] using Constructed.file _ _)
    (by
      intro x hx r hr
      rw [List.mem_singleton.mp hx] at hr
      rw [hfile _ _ r hr]
      decide +kernel)
    (fun y hy r hr hnil => by
      have htexts : ∀ y ∈ flattenAll ys, y.text ≠ [] := by decide +kernel
      exact absurd ((text_of_compositionAt hr).symm.trans hnil) (htexts y hy))
    (fun h => absurd (congrArg List.length h) (by decide +kernel))
  have hflat : compositionAt (32 : Nat) 0 (joined 1 (flattenAll (xs ++ ys ++ zs))) =
      .ok ⟨"a\nbcd", [⟨0, 0, some ⟨0, 0, 0, none⟩⟩, ⟨1, 0, some ⟨1, 0, 0, none⟩⟩, ⟨1, 1, none⟩,
        ⟨1, 2, some ⟨0, 0, 0, none⟩⟩], ⟨[("a.js", some "a\n"), ("b.js", some "b")]⟩, {}, 0⟩ := by
    decide +kernel
  exact ⟨_, hflat, hnested.trans hflat, rfl⟩

/-- Although no source is mapped at its very end, a joined source without parts ends what goes on at the
end of a file, and one that starts with a mapped part without a text hides a boundary. -/
theorem nested_differs :
    ((∀ x ∈ [file "a" "a.js"], x.Constructed ∧
        ∃ r, compositionAt (32 : Nat) 0 x = .ok r ∧ ¬ r.MappedAtEnd) ∧
      ∃ c d, compositionAt (32 : Nat) 0
          (joined 1 (flattenAll ([file "a" "a.js"] ++ kept 2 (joined 3 (flattenAll [])) :: []))) =
            .ok c ∧
        compositionAt (32 : Nat) 0 (joined 1 (flattenAll ([file "a" "a.js"] ++ [] ++ []))) = .ok d ∧
        c.mappings = [⟨0, 0, some ⟨0, 0, 0, none⟩⟩, ⟨0, 1, none⟩] ∧
        d.mappings = [⟨0, 0, some ⟨0, 0, 0, none⟩⟩]) ∧
    ((∀ x ∈ [plain "x", joined 4 [generated 5
          ⟨"", "m.js", ⟨["a.js"], none, [], "AAAA", none, none⟩, none, false, false⟩ [], plain "b"]],
        x.Constructed ∧ ∃ r, compositionAt (32 : Nat) 0 x = .ok r ∧ ¬ r.MappedAtEnd) ∧
      ∃ c d, compositionAt (32 : Nat) 0 (joined 1 (flattenAll ([plain "x"] ++
          kept 2 (joined 3 (flattenAll [joined 4 [generated 5
            ⟨"", "m.js", ⟨["a.js"], none, [], "AAAA", none, none⟩, none, false, false⟩ [], plain "b"]])) ::
              []))) = .ok c ∧
        compositionAt (32 : Nat) 0 (joined 1 (flattenAll ([plain "x"] ++
          [joined 4 [generated 5
            ⟨"", "m.js", ⟨["a.js"], none, [], "AAAA", none, none⟩, none, false, false⟩ [], plain "b"]] ++
              []))) = .ok d ∧
        c.mappings = [⟨0, 1, some ⟨0, 0, 0, none⟩⟩] ∧ d.mappings = []) := by
  refine ⟨⟨fun x hx => ?_, ?_⟩, ⟨fun x hx => ?_, ?_⟩⟩
  · rw [List.mem_singleton.mp hx]
    exact ⟨.file _ _, _, compositionAt_file _ _ _ _, by decide +kernel⟩
  · exact ⟨⟨"a", [⟨0, 0, some ⟨0, 0, 0, none⟩⟩, ⟨0, 1, none⟩], ⟨[("a.js", some "a")]⟩, {}, 0⟩,
      ⟨"a", [⟨0, 0, some ⟨0, 0, 0, none⟩⟩], ⟨[("a.js", some "a")]⟩, {}, 0⟩, by decide +kernel,
      by decide +kernel, rfl, rfl⟩
  · have hdecode : MappingTable.decode "AAAA" = .ok [⟨0, 0, some ⟨0, 0, 0, none⟩⟩] := by
      decide +kernel
    rcases List.mem_cons.mp hx with rfl | hx
    · exact ⟨.plain _, _, compositionAt_plain _ _ _, by decide +kernel⟩
    · rw [List.mem_singleton.mp hx]
      refine ⟨.joined fun s hs => ?_, ⟨"b", [⟨0, 0, some ⟨0, 0, 0, none⟩⟩], ⟨[("a.js", none)]⟩, {}, 0⟩,
        by decide +kernel, by decide +kernel⟩
      rcases List.mem_cons.mp hs with rfl | hs
      · exact .generated hdecode (by decide +kernel) (by simp)
      · rw [List.mem_singleton.mp hs]
        exact .plain _
  · exact ⟨⟨"xb", [⟨0, 1, some ⟨0, 0, 0, none⟩⟩], ⟨[("a.js", none)]⟩, {}, 0⟩,
      ⟨"xb", [], ⟨[("a.js", none)]⟩, {}, 0⟩, by decide +kernel, by decide +kernel, rfl, rfl⟩

end Provenance.Source
