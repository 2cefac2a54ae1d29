/-
# Source maps

A source map tells where the positions of a generated text come from: the sources, their contents
where known, the names, and the mappings as text.

The main facts:

* `length_contents_fit` : a fitted map has one content for each source.
-/
import Provenance.Mapping.Trace
import Provenance.Notice

namespace Provenance

/-- A source map. -/
structure SourceMap where
  sources : List Text
  /-- The contents of the sources, if any are known. -/
  contents : Option (List (Option Text)) := none
  names : List Text
  mappings : Text
  file : Option Text := none
  sourceRoot : Option Text := none
  deriving DecidableEq, Repr

/-- An origin in words. -/
structure OriginPosition where
  /-- The source; unknown if the map lists no source of that index. -/
  source : Option Text
  line : Number
  column : Number
  name : Option Text
  deriving DecidableEq, Repr

namespace SourceMap

/-- The contents of as many sources as there are: missing ones are unknown, surplus ones are left
out. -/
def fitContents : List Text → List (Option Text) → List (Option Text)
  | [], _ => []
  | _ :: sources, [] => none :: fitContents sources []
  | _ :: sources, content :: contents => content :: fitContents sources contents

/-- The map with one content for each source, and a notice if that takes a change. -/
def fit (m : SourceMap) : SourceMap × List Notice :=
  match m.contents with
  | some contents =>
    if contents.length = m.sources.length then (m, [])
    else
      ({ m with contents := some (fitContents m.sources contents) },
        [.contentCount contents.length m.sources.length])
  | none => (m, [])

/-- The source root as it stands in front of a source, ended by a slash. -/
def rootText (root : Text) : Text :=
  if root.getLast? = some (CodeUnit.ofChar '/') then root else root ++ "/"

/-- The sources with the source root in front. -/
def qualifiedSources (m : SourceMap) : List Text :=
  match m.sourceRoot with
  | none | some [] => m.sources
  | some root => m.sources.map fun s => rootText root ++ s

/-- The content that the map has for the source at an index. -/
def contentAt (m : SourceMap) (index : Nat) : Option Text := do
  let contents ← m.contents
  (contents[index]?).join

/-- The origin of a generated position, found in the map's decoded table. -/
def positionIn (m : SourceMap) (table : MappingTable) (line column : Number) :
    Option OriginPosition := do
  let o ← table.trace? line column
  some
    { source := o.source.toNat?.bind fun i => m.qualifiedSources[i]?
      line := o.line
      column := o.column
      name := o.name.bind fun name => name.toNat?.bind fun i => m.names[i]? }

theorem length_fitContents (sources : List Text) (contents : List (Option Text)) :
    (fitContents sources contents).length = sources.length := by
  induction sources generalizing contents with
  | nil => rfl
  | cons s rest ih => cases contents <;> simp [fitContents, ih]

/-- A fitted map has one content for each source. -/
theorem length_contents_fit (m : SourceMap) :
    ∀ contents ∈ m.fit.1.contents, contents.length = m.fit.1.sources.length := by
  intro contents h
  cases hc : m.contents with
  | none => simp [fit, hc] at h
  | some given =>
    by_cases hl : given.length = m.sources.length
    · simp only [fit, hc, hl, if_true] at h ⊢
      rw [Option.mem_some_iff] at h
      rw [← h, hl]
    · simp only [fit, hc, hl, if_false, Option.mem_some_iff] at h ⊢
      rw [← h, length_fitContents]

end SourceMap

end Provenance
