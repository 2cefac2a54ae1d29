/-
# Well-formed requests

A request is well formed if all texts that it puts into sources are: the texts of the plan for a source,
the names of files, the keys of further sources, and what replacements bring in.  Nothing is asked of
the documents of maps and of the options of a query.

The main facts:

* `formed_of_checkReplacements` : edits have the contents and the names of the replacements they are;
* `keys_of_buildInputs` : further sources are built under the keys that they are planned under.
-/
import Provenance.Proofs.Tree.ContentHash
import Provenance.Proofs.Tree.Splice
import Provenance.Session.Run

namespace Provenance

/-- The content and the name of a replacement are well formed. -/
def Replacement.Formed (r : Replacement) : Prop :=
  r.content.wellFormed = true ∧ ∀ t ∈ r.name, t.wellFormed = true

mutual

/-- All texts that a plan puts into sources are well formed. -/
inductive Plan.Formed : Plan → Prop where
  | ref (name : Text) : Plan.Formed (.ref name)
  | plain {t : Text} (htext : t.wellFormed = true) : Plan.Formed (.plain t)
  | file {t name : Text} (htext : t.wellFormed = true) (hname : name.wellFormed = true) :
      Plan.Formed (.file t name)
  | generated {t name : Text} {map : MapPlan} {sourceText : Option Text} {innerMap : Option MapPlan}
      {inputs : List (Text × Plan)} {withholdText : Bool} (htext : t.wellFormed = true)
      (hname : name.wellFormed = true) (hmap : MapPlan.Formed map)
      (hsourceText : ∀ s ∈ sourceText, s.wellFormed = true)
      (hinnerMap : ∀ m ∈ innerMap, MapPlan.Formed m)
      (hkeys : ∀ input ∈ inputs, input.1.wellFormed = true)
      (hinputs : ∀ input ∈ inputs, Plan.Formed input.2) :
      Plan.Formed (.generated t name map sourceText innerMap inputs withholdText)
  | joined {children : List Plan} (hchildren : ∀ p ∈ children, Plan.Formed p) :
      Plan.Formed (.joined children)
  | edited {base : Plan} {rs : List Replacement} (hbase : Plan.Formed base)
      (hrs : ∀ r ∈ rs, r.Formed) : Plan.Formed (.edited base rs)
  | kept {child : Plan} (hchild : Plan.Formed child) : Plan.Formed (.kept child)

/-- All texts that a plan for a map puts into sources are well formed. -/
inductive MapPlan.Formed : MapPlan → Prop where
  | document (json : Json) : MapPlan.Formed (.document json)
  | mapOf {p : Plan} {options : OutputOptions} (hplan : Plan.Formed p) :
      MapPlan.Formed (.mapOf p options)

end

/-- All texts that a request puts into sources are well formed. -/
def Request.Formed : Request → Prop
  | .define _ plan => plan.Formed
  | .query plan _ => plan.Formed
  | .decode _ => True
  | .stats => True
  | .clear _ => True
  | .setTracing _ => True

/-! ## Edits -/

/-- Edits that replacements were accepted as have their contents and their names. -/
theorem formed_of_checkReplacements {t : Text} {rs : List Replacement} {edits : List Edit}
    (h : checkReplacements t rs = .ok edits) (hrs : ∀ r ∈ rs, r.Formed) : ∀ e ∈ edits, e.Formed := by
  obtain ⟨-, rfl⟩ := checkReplacements_eq_ok_iff.mp h
  exact fun e he => hrs _ (List.mem_map_of_mem he)

/-! ## Lists of sources -/

/-- The sources of a list that is built element by element. -/
theorem cons_subset_append {x : Source} {others sources : List Source} :
    x :: others ⊆ others ++ ([x] ++ sources) := by
  intro y hy
  rcases List.mem_cons.mp hy with rfl | hy
  · exact List.mem_append_right _ List.mem_cons_self
  · exact List.mem_append_left _ hy

/-! ## Keys -/

/-- What is in a list after an insertion was in it before, or was inserted. -/
theorem mem_of_mem_insert {α : Type} {key : Text} {value : α} {entries : List (Text × α)}
    {e : Text × α} (h : e ∈ Assoc.insert key value entries) : e = (key, value) ∨ e ∈ entries := by
  induction entries with
  | nil => exact Or.inl (List.mem_singleton.mp h)
  | cons entry rest ih =>
    obtain ⟨k, v⟩ := entry
    unfold Assoc.insert at h
    split at h
    · rcases List.mem_cons.mp h with rfl | h
      · exact Or.inl rfl
      · exact Or.inr (List.mem_cons_of_mem _ h)
    · rcases List.mem_cons.mp h with rfl | h
      · exact Or.inr List.mem_cons_self
      · exact (ih h).imp_right (List.mem_cons_of_mem _)

/-- The further sources of a new node are among those given for it. -/
theorem mem_of_mem_ofList {α : Type} {entries : List (Text × α)} {e : Text × α}
    (h : e ∈ Inputs.ofList entries) : e ∈ entries := by
  have hinserted : ∀ (rest found : List (Text × α)),
      e ∈ rest.foldl (fun found e => Assoc.insert e.1 e.2 found) found → e ∈ rest ∨ e ∈ found := by
    intro rest
    induction rest with
    | nil => exact fun found h => Or.inr h
    | cons first rest ih =>
      intro found h
      rcases ih _ h with h | h
      · exact Or.inl (List.mem_cons_of_mem _ h)
      · rcases mem_of_mem_insert h with rfl | h
        · exact Or.inl List.mem_cons_self
        · exact Or.inr h
  unfold Inputs.ofList Inputs.arrange at h
  have hmem : e ∈ entries.foldl (fun found e => Assoc.insert e.1 e.2 found) [] := by
    rcases List.mem_append.mp h with h | h
    · obtain ⟨⟨n, e'⟩, hsorted, rfl⟩ := List.mem_map.mp h
      obtain ⟨e, he, hindex⟩ := List.mem_filterMap.mp (List.mem_mergeSort.mp hsorted)
      obtain ⟨n', -, heq⟩ := Option.map_eq_some_iff.mp hindex
      rw [← (Prod.mk.inj heq).2]
      exact he
    · exact List.mem_of_mem_filter h
  rcases hinserted entries [] hmem with h | h
  · exact h
  · cases h

namespace Session

/-- Further sources are built under the keys that they are planned under. -/
theorem keys_of_buildInputs {defined : Definitions} {ps : List (Text × Plan)} {s t : Store}
    {inputs : List (Text × Source)} (h : buildInputs defined ps s = .ok inputs t) :
    inputs.map Prod.fst = ps.map Prod.fst := by
  induction ps generalizing s t inputs with
  | nil =>
    rw [buildInputs] at h
    cases h
    rfl
  | cons p rest ih =>
    obtain ⟨key, p⟩ := p
    rw [buildInputs] at h
    simp only [bind, EStateM.bind] at h
    split at h
    · split at h
      · rename_i others s₂ hothers
        cases h
        rw [List.map_cons, List.map_cons, ih hothers]
      · cases h
    · cases h

end Session

end Provenance
