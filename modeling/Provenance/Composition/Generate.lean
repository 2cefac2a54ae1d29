/-
# Tracing a map through further results

A generated text with a source map is composed by looking at each source of the map: one that is
generated itself is replaced by what its own result maps to, any other stands as it is.  Where the
result of a generated source has no mapping, the intermediate position is kept; this is a gap.

The main facts:

* `text_generate` : the text is the generated text.
-/
import Provenance.Composition.Basic
import Provenance.Notice
import Provenance.Tree.Basic

namespace Provenance

/-! ## Gaps -/

/-- A position of a generated source that its result maps to nothing. -/
structure Gap where
  source : Text
  line : Number
  column : Number
  /-- The text of the generated source. -/
  text : Text
  deriving DecidableEq, Repr

/-- The notice of a gap, with an excerpt of the generated source around it. -/
def Gap.notice (g : Gap) : Notice :=
  let starts := g.text.lineOffsets
  let index := min g.line ((starts.length - 1 : Nat) : Number)
  let start : Number :=
    match index.toNat?.bind fun i => starts[i]? with
    | some s => (s : Number)
    | none => .nan
  .gap g.source g.line g.column
    (Excerpt.of g.text (min (start + g.column) (g.text.length : Number)))

/-! ## Sources of a map -/

/-- What stands for a source of a map in the composed result. -/
inductive Resolver where
  /-- A source that is not generated, with its new index. -/
  | known (index : Nat)
  /-- A generated source, with its result. -/
  | traced (name : Text) (result : Composition)

/-- Why an entry of a map cannot be resolved. -/
inductive ResolveError where
  /-- The entry refers to no source of the map. -/
  | noSource
  /-- The result of a generated source refers to no source or name of its own. -/
  | missing (e : MissingIndex)
  deriving DecidableEq, Repr

/-- The words for an entry that cannot be resolved, if it has words of its own. -/
def ResolveError.message : ResolveError → Option Text
  | noSource => none
  | missing e => some e.message

/-- The tables of a result while it is put together. -/
structure Tables where
  sources : ContentTable := {}
  names : TextTable := {}

namespace GeneratedText

/-- The content that is known for the source at an index of the map. -/
def contentOf (node : GeneratedText) (index : Nat) (source : Text) : Option Text :=
  if source = node.name then
    if node.withholdText then none
    else (node.map.contentAt index).or node.sourceText
  else node.map.contentAt index

/-- The sources of the map with their indices, each with the result that stands for it if it is
generated. -/
def resolversFrom (node : GeneratedText) (index : Nat) (sources : ContentTable) :
    List (Text × Option Composition) → List Resolver × ContentTable
  | [] => ([], sources)
  | (source, some result) :: rest =>
    let (others, sources) := node.resolversFrom (index + 1) sources rest
    (.traced source result :: others, sources)
  | (source, none) :: rest =>
    let (i, sources) := sources.intern source (node.contentOf index source)
    let (others, sources) := node.resolversFrom (index + 1) sources rest
    (.known i :: others, sources)

/-- The location that a map's location resolves to. -/
def resolveLocation (node : GeneratedText) (resolvers : List Resolver) (nameIndices : List Nat)
    (tables : Tables) (o : Location) :
    Except ResolveError (Location × Tables × Option Gap) :=
  let name : Option Number :=
    (o.name.bind fun n => n.toNat?.bind fun i => nameIndices[i]?).map fun n : Nat => (n : Number)
  match o.source.toNat? with
  | none => .error .noSource
  | some index =>
    match resolvers[index]? with
    | none => .error .noSource
    | some (.known i) => .ok (⟨(i : Number), o.line, o.column, name⟩, tables, none)
    | some (.traced source result) =>
      match result.mappings.trace? o.line o.column with
      | none =>
        let content := (node.contentOf index source).or (some result.text)
        let (i, sources) := tables.sources.intern source content
        .ok (⟨(i : Number), o.line, o.column, name⟩, { tables with sources := sources },
          some ⟨source, o.line, o.column, result.text⟩)
      | some t =>
        match result.sources.names.get t.source with
        | .error e => .error (.missing e)
        | .ok s =>
          let (i, sources) := tables.sources.intern s (result.sources.content? t.source)
          match t.name with
          | none =>
            .ok (⟨(i : Number), t.line, t.column, name⟩, { tables with sources := sources }, none)
          | some n =>
            match result.names.get n with
            | .error e => .error (.missing e)
            | .ok s =>
              let (n, names) := tables.names.intern s
              .ok (⟨(i : Number), t.line, t.column, some (n : Number)⟩, ⟨sources, names⟩, none)

/-- The entries that a map's entries resolve to one after the other, with the gaps met on the way,
also where an entry cannot be resolved. -/
def resolveFrom (node : GeneratedText) (resolvers : List Resolver) (nameIndices : List Nat)
    (tables : Tables) : MappingTable → List Gap × Except ResolveError (MappingTable × Tables)
  | [] => ([], .ok ([], tables))
  | m :: rest =>
    match m.origin with
    | none =>
      let (gaps, result) := node.resolveFrom resolvers nameIndices tables rest
      (gaps, result.map fun (others, tables) => ({ m with origin := none } :: others, tables))
    | some o =>
      match node.resolveLocation resolvers nameIndices tables o with
      | .error e => ([], .error e)
      | .ok (o, tables, gap) =>
        let (gaps, result) := node.resolveFrom resolvers nameIndices tables rest
        (gap.toList ++ gaps,
          result.map fun (others, tables) => ({ m with origin := some o } :: others, tables))

/-- Whether the generated position of an entry is inside a text. -/
def isInside (t : Text) (m : Mapping) : Bool :=
  match m.line.toNat? with
  | none => false
  | some line =>
    match t.lineOffsets[line]? with
    | none => false
    | some start => m.column.moved start ≤ (t.lineEnd line : Number)

/-- The keys of further sources that the map does not refer to. -/
def unreferenced (node : GeneratedText) (keys : List Text) : List Text :=
  keys.filter fun key => !node.map.qualifiedSources.contains key && !node.map.sources.contains key

end GeneratedText

/-- The result for a generated text with the decoded table of its map, given the results that stand
for the sources that are generated; with the gaps met. -/
def Composition.generate (node : GeneratedText) (results : List (Option Composition))
    (table : MappingTable) : List Gap × Except ResolveError Composition :=
  let (nameIndices, names) := TextTable.internAll {} node.map.names
  let (resolvers, sources) := node.resolversFrom 0 {} (node.map.qualifiedSources.zip results)
  let inside := table.filter (GeneratedText.isInside node.text)
  let (gaps, entries) := node.resolveFrom resolvers nameIndices ⟨sources, names⟩ inside
  (gaps, entries.map fun (entries, tables) =>
    { text := node.text
      mappings := entries.normalForm
      sources := tables.sources
      names := tables.names
      chainLength := (results.filterMap (Option.map fun c => c.chainLength + 1)).foldl max 0 })

/-- The text is the generated text. -/
theorem Composition.text_generate {node : GeneratedText} {results : List (Option Composition)}
    {table : MappingTable} {c : Composition}
    (h : (Composition.generate node results table).2 = .ok c) : c.text = node.text := by
  unfold Composition.generate at h
  simp only [Except.map] at h
  split at h
  · simp at h
  · simp only [Except.ok.injEq] at h
    rw [← h]

end Provenance
