/-
# String tables

A string table gives each text a stable index, in the order in which the texts were first added.
The entries of mapping tables refer to sources and names by these indices.  A source table also
remembers the first content supplied for each source.

The main facts:

* `names_intern` : a source table and its table of names give the same indices;
* `texts_intern` : adding a text appends it, or changes nothing if it is known.
-/
import Provenance.Text.Basic

namespace Provenance

/-- There is no text at an index. -/
structure MissingIndex where
  index : Number
  size : Nat
  deriving DecidableEq, Repr

/-- The words for an index without a text. -/
def MissingIndex.message (e : MissingIndex) : Text :=
  ("no string at index " : Text) ++ Text.ofNumber e.index ++ " (size " ++ Text.ofNat e.size ++ ")"

/-! ## Names -/

/-- Distinct texts in the order in which they were first added. -/
structure TextTable where
  texts : List Text := []
  deriving DecidableEq, Repr

namespace TextTable

/-- The number of texts. -/
def size (t : TextTable) : Nat := t.texts.length

/-- The index of a text, if it is in the table. -/
def indexOf? (t : TextTable) (s : Text) : Option Nat := t.texts.idxOf? s

/-- The text at an index, if the index is one of the table. -/
def get? (t : TextTable) (index : Number) : Option Text :=
  index.toNat?.bind fun i => t.texts[i]?

/-- The text at an index. -/
def get (t : TextTable) (index : Number) : Except MissingIndex Text :=
  match t.get? index with
  | some s => .ok s
  | none => .error ⟨index, t.size⟩

/-- Whether an index is one of the table. -/
def has (t : TextTable) (index : Number) : Bool :=
  match index.toNat? with
  | some i => i < t.size
  | none => false

/-- The index of a text, and the table with the text in it. -/
def intern (t : TextTable) (s : Text) : Nat × TextTable :=
  match t.indexOf? s with
  | some i => (i, t)
  | none => (t.size, ⟨t.texts ++ [s]⟩)

/-- The indices of some texts, and the table with all of them in it. -/
def internAll (t : TextTable) : List Text → List Nat × TextTable
  | [] => ([], t)
  | s :: rest =>
    let (i, t) := t.intern s
    let (indices, t) := t.internAll rest
    (i :: indices, t)

/-- The table of some texts. -/
def ofList (initial : List Text) : TextTable := (TextTable.internAll {} initial).2

/-- Adding a text appends it, or changes nothing if it is known. -/
theorem texts_intern (t : TextTable) (s : Text) :
    (t.intern s).2.texts = if s ∈ t.texts then t.texts else t.texts ++ [s] := by
  unfold intern indexOf?
  cases h : t.texts.idxOf? s with
  | none =>
    rw [if_neg (List.idxOf?_eq_none_iff.mp h)]
  | some i =>
    have hs : s ∈ t.texts := by
      by_cases hs : s ∈ t.texts
      · exact hs
      · rw [List.idxOf?_eq_none_iff.mpr hs] at h
        cases h
    rw [if_pos hs]

end TextTable

/-! ## Sources -/

/-- Distinct sources in the order in which they were first added, each with its content if one is
known. -/
structure ContentTable where
  entries : List (Text × Option Text) := []
  deriving DecidableEq, Repr

namespace ContentTable

/-- The sources without their contents. -/
def names (t : ContentTable) : TextTable := ⟨t.entries.map Prod.fst⟩

/-- The contents in the order of the sources. -/
def contents (t : ContentTable) : List (Option Text) := t.entries.map Prod.snd

/-- The content of the source at an index, if one is known. -/
def content? (t : ContentTable) (index : Number) : Option Text :=
  index.toNat?.bind fun i => t.contents[i]?.join

/-- Whether the content of some source is known. -/
def anyContent (t : ContentTable) : Bool := t.contents.any Option.isSome

/-- The index of a source, and the table with the source in it.  The content is recorded if none is
known yet. -/
def intern (t : ContentTable) (s : Text) (content : Option Text := none) : Nat × ContentTable :=
  match t.names.indexOf? s with
  | some i => (i, ⟨t.entries.modify i fun (name, known) => (name, known.or content)⟩)
  | none => (t.entries.length, ⟨t.entries ++ [(s, content)]⟩)

/-- The indices of some sources with their contents, and the table with all of them in it. -/
def internAll (t : ContentTable) : List (Text × Option Text) → List Nat × ContentTable
  | [] => ([], t)
  | (s, content) :: rest =>
    let (i, t) := t.intern s content
    let (indices, t) := t.internAll rest
    (i :: indices, t)

/-- Sources paired with contents from left to right; missing contents are unknown. -/
def pair : List Text → List (Option Text) → List (Text × Option Text)
  | [], _ => []
  | s :: rest, [] => (s, none) :: pair rest []
  | s :: rest, content :: contents => (s, content) :: pair rest contents

/-- The table of some sources with their contents. -/
def ofList (initial : List Text) (contents : List (Option Text) := []) : ContentTable :=
  (ContentTable.internAll {} (pair initial contents)).2

/-- Adding a source adds its name to the names. -/
theorem names_intern (t : ContentTable) (s : Text) (content : Option Text) :
    (t.intern s content).2.names = (t.names.intern s).2 ∧
      (t.intern s content).1 = (t.names.intern s).1 := by
  unfold intern TextTable.intern
  cases t.names.indexOf? s with
  | none => simp [names, TextTable.size]
  | some i =>
    refine ⟨?_, rfl⟩
    unfold names
    simp only [TextTable.mk.injEq]
    apply List.ext_getElem?
    intro j
    simp only [List.getElem?_map, List.getElem?_modify]
    split <;> cases t.entries[j]? <;> rfl

end ContentTable

end Provenance
