/-
# What a document tells

The text of a document determines the source map that it was written for.

The main facts:

* `toText_inj` : source maps with one text are equal;
* `wellFormed_toText` : the text of a document is well formed.
-/
import Provenance.Proofs.Json.Printer
import Provenance.SourceMap.Document

namespace Provenance.SourceMap

open Json (Simple)

/-! ## Members -/

theorem simple_contentJson (content : Option Text) : (contentJson content).Simple := by
  cases content with
  | none => exact .null
  | some t => exact .str t

theorem contentJson_inj {a b : Option Text} (h : contentJson a = contentJson b) : a = b := by
  cases a with
  | none =>
    cases b with
    | none => rfl
    | some t => cases h
  | some s =>
    cases b with
    | none => cases h
    | some t => rw [Json.str.inj h]

/-- The contents of an array of simple values. -/
theorem simple_arr_map {α : Type} {f : α → Json} (hf : ∀ a, (f a).Simple) (as : List α) :
    (Json.arr (as.map f)).Simple := by
  refine .arr fun item hitem => ?_
  obtain ⟨a, -, rfl⟩ := List.mem_map.mp hitem
  exact hf a

/-- A member that may be missing is told from those that follow by its key. -/
theorem optionalMember_append_inj {key : Text} {a b : Option Json} {s t : List (Text × Json)}
    (hs : key ∉ s.map Prod.fst) (ht : key ∉ t.map Prod.fst)
    (h : optionalMember key a ++ s = optionalMember key b ++ t) : a = b ∧ s = t := by
  cases a with
  | none =>
    cases b with
    | none => exact ⟨rfl, h⟩
    | some w =>
      have hs' : s = (key, w) :: t := h
      exact absurd (by simp [hs']) hs
  | some v =>
    cases b with
    | none =>
      have ht' : (key, v) :: s = t := h
      exact absurd (by simp [← ht']) ht
    | some w =>
      obtain ⟨hmember, hrest⟩ := List.cons.inj h
      exact ⟨by rw [(Prod.mk.inj hmember).2], hrest⟩

theorem keys_optionalMember (key : Text) (value : Option Json) :
    ∀ k ∈ (optionalMember key value).map Prod.fst, k = key := by
  cases value with
  | none => simp [optionalMember]
  | some v => simp [optionalMember]

/-- The members of a document that may be missing. -/
def optionalMembers (m : SourceMap) : List (Text × Json) :=
  optionalMember "sourcesContent" (m.contents.map fun cs => .arr (cs.map contentJson)) ++
    (optionalMember "file" (m.file.map .str) ++ optionalMember "sourceRoot" (m.sourceRoot.map .str))

/-- The members that may be missing tell the contents, the file and the source root. -/
theorem optionalMembers_inj {m n : SourceMap} (h : m.optionalMembers = n.optionalMembers) :
    m.contents = n.contents ∧ m.file = n.file ∧ m.sourceRoot = n.sourceRoot := by
  have hroot : ∀ value, Text.ofString "file" ∉
      (optionalMember "sourceRoot" value).map Prod.fst := fun value hmem =>
    absurd (keys_optionalMember _ value _ hmem) (by decide)
  have hrest : ∀ file root, Text.ofString "sourcesContent" ∉
      (optionalMember "file" file ++ optionalMember "sourceRoot" root).map Prod.fst := by
    intro file root hmem
    rw [List.map_append] at hmem
    rcases List.mem_append.mp hmem with hmem | hmem
    · exact absurd (keys_optionalMember _ file _ hmem) (by decide)
    · exact absurd (keys_optionalMember _ root _ hmem) (by decide)
  obtain ⟨hcontents, h⟩ := optionalMember_append_inj (hrest _ _) (hrest _ _) h
  obtain ⟨hfile, h⟩ := optionalMember_append_inj (hroot _) (hroot _) h
  obtain ⟨hroot, -⟩ := optionalMember_append_inj (s := []) (t := []) (by simp) (by simp)
    (by simpa using h)
  have hstr : Function.Injective Json.str := fun s t h => Json.str.inj h
  refine ⟨Option.map_injective (fun cs ds h => ?_) hcontents, Option.map_injective hstr hfile,
    Option.map_injective hstr hroot⟩
  exact (List.map_inj_right fun _ _ => contentJson_inj).mp (Json.arr.inj h)

/-! ## Documents -/

/-- The members of a document. -/
def members (m : SourceMap) : List (Text × Json) :=
  ("version", .num 3) :: ("sources", .arr (m.sources.map .str)) ::
    ("names", .arr (m.names.map .str)) :: ("mappings", .str m.mappings) :: m.optionalMembers

theorem toJson_eq (m : SourceMap) : m.toJson = .obj m.members := by
  simp only [toJson, members, optionalMembers, List.append_assoc, List.cons_append,
    List.nil_append]

/-- The members of a document determine the source map. -/
theorem members_inj {m n : SourceMap} (h : m.members = n.members) : m = n := by
  have hstr : ∀ s t, Json.str s = Json.str t → s = t := fun s t h => Json.str.inj h
  simp only [members, List.cons.injEq, Prod.mk.injEq, Json.arr.injEq, Json.str.injEq,
    List.map_inj_right hstr, true_and] at h
  obtain ⟨hsources, hnames, hmappings, h⟩ := h
  obtain ⟨hcontents, hfile, hroot⟩ := optionalMembers_inj h
  cases m
  cases n
  simp only at hsources hcontents hnames hmappings hfile hroot
  rw [hsources, hcontents, hnames, hmappings, hfile, hroot]

theorem simple_optionalMember {key : Text} {value : Option Json} (h : ∀ v ∈ value, v.Simple) :
    ∀ member ∈ optionalMember key value, member.2.Simple := by
  cases value with
  | none => simp [optionalMember]
  | some v =>
    intro member hmember
    rw [List.mem_singleton.mp hmember]
    exact h v rfl

theorem simple_members (m : SourceMap) : ∀ member ∈ m.members, member.2.Simple := by
  have hstr : ∀ t : Option Text, ∀ v ∈ t.map Json.str, v.Simple := by
    intro t v hv
    obtain ⟨s, -, rfl⟩ := Option.map_eq_some_iff.mp hv
    exact .str s
  have hcontents : ∀ v ∈ m.contents.map fun cs => Json.arr (cs.map contentJson), v.Simple := by
    intro v hv
    obtain ⟨cs, -, rfl⟩ := Option.map_eq_some_iff.mp hv
    exact simple_arr_map simple_contentJson cs
  intro member hmember
  simp only [members, optionalMembers, List.mem_cons, List.mem_append] at hmember
  rcases hmember with rfl | rfl | rfl | rfl | hmember | hmember | hmember
  · exact .three
  · exact simple_arr_map .str m.sources
  · exact simple_arr_map .str m.names
  · exact .str m.mappings
  · exact simple_optionalMember hcontents member hmember
  · exact simple_optionalMember (hstr m.file) member hmember
  · exact simple_optionalMember (hstr m.sourceRoot) member hmember

theorem toText_eq (m : SourceMap) :
    m.toText = 123 :: (Json.renderMembers m.members ++ 125 :: []) := by
  rw [toText, toJson_eq, Json.render_obj]

/-- The text of a document is well formed, even if what is in the map is not. -/
theorem wellFormed_toText (m : SourceMap) : m.toText.wellFormed = true := by
  rw [toText_eq, Text.wellFormed_cons (by decide)]
  exact Text.wellFormed_append (Json.wellFormed_renderMembers m.simple_members) rfl

/-- **Source maps with one text are equal.** -/
theorem toText_inj {m n : SourceMap} (h : m.toText = n.toText) : m = n := by
  rw [toText_eq, toText_eq] at h
  obtain ⟨hmembers, -⟩ := Json.renderMembers_append_inj m.simple_members n.simple_members
    (List.cons.inj h).2
  exact members_inj hmembers

end Provenance.SourceMap
