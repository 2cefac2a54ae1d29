/-
# Origins traced through a map

Each entry of a map is resolved on its own: it keeps its generated position, and its origin is traced
through the result that stands for its source, if there is one.  The tables only grow on the way, so
that what an entry was resolved to can still be read in the end.

The main facts:

* `resolves_of_resolveLocation` : the ways in which a location resolves;
* `ResolvesAll.spec` : entries are resolved one by one;
* `isInside_eq_add_le` : an entry is tested against the text as by a rounded sum;
* `generate_proper` : tracing a decoded map gives a proper result;
* `originAt_generate` : the origin of a position in the text.
-/
import Provenance.Composition.Generate
import Provenance.Proofs.Composition.Origin
import Provenance.Proofs.Except
import Provenance.Proofs.Mapping.Decode

namespace Provenance

namespace GeneratedText

/-! ## Resolvers -/

/-- What an origin in words is after it has been traced through a result: a traced origin keeps its
own name, and takes the given one if it has none. -/
def traceThrough (result : Option Composition) (own : OriginPosition) : OriginPosition :=
  match result.bind fun c => c.originAt own.line own.column with
  | some o => { o with name := o.name.or own.name }
  | none => own

/-- A position that a result maps to nothing stays where it is. -/
theorem traceThrough_of_gap {result : Composition} {own : OriginPosition}
    (h : result.mappings.trace? own.line own.column = none) :
    traceThrough (some result) own = own := by
  simp [traceThrough, Composition.originAt, h]

/-- A position that a result maps to a location is what the result says of it. -/
theorem traceThrough_of_trace {result : Composition} {own : OriginPosition} {t : Location}
    (h : result.mappings.trace? own.line own.column = some t) :
    traceThrough (some result) own =
      ⟨result.sources.names.get? t.source, t.line, t.column,
        (t.name.bind result.names.get?).or own.name⟩ := by
  simp [traceThrough, Composition.originAt, h, Composition.describe, Location.describeIn]

/-- A resolver stands for a source of the map, for which a result is given if it is generated. -/
def StandsFor (sources : TextTable) (entry : Text × Option Composition) : Resolver → Prop
  | .known i => entry.2 = none ∧ sources.get? (i : Number) = some entry.1
  | .traced name result => entry = (name, some result)

theorem StandsFor.of_extends {larger smaller : TextTable} {entry : Text × Option Composition}
    {r : Resolver} (h : StandsFor smaller entry r) (hextends : larger.Extends smaller) :
    StandsFor larger entry r := by
  cases r with
  | known i => exact ⟨h.1, TextTable.get?_of_extends hextends h.2⟩
  | traced name result => exact h

/-- There is one resolver for each source of the map. -/
theorem resolversFrom_spec (node : GeneratedText) (index : Nat) (sources : ContentTable)
    (entries : List (Text × Option Composition)) :
    (node.resolversFrom index sources entries).2.names.Extends sources.names ∧
      List.Forall₂ (StandsFor (node.resolversFrom index sources entries).2.names) entries
        (node.resolversFrom index sources entries).1 := by
  induction entries generalizing index sources with
  | nil => exact ⟨.refl _, .nil⟩
  | cons entry rest ih =>
    obtain ⟨source, result⟩ := entry
    cases result with
    | some result =>
      obtain ⟨hextends, hrest⟩ := ih (index + 1) sources
      exact ⟨hextends, .cons rfl hrest⟩
    | none =>
      have hget := sources.get?_intern source (node.contentOf index source)
      obtain ⟨hextends, hrest⟩ :=
        ih (index + 1) (sources.intern source (node.contentOf index source)).2
      exact ⟨hextends.trans (sources.extends_intern _ _),
        .cons ⟨rfl, TextTable.get?_of_extends hextends hget⟩ hrest⟩

/-! ## One location -/

/-- What the tables must have for the locations of a map to be resolved. -/
structure Ready (node : GeneratedText) (results : List (Option Composition))
    (resolvers : List Resolver) (nameIndices : List Nat) (tables : Tables) : Prop where
  resolvers : List.Forall₂ (StandsFor tables.sources.names)
    (node.map.qualifiedSources.zip results) resolvers
  names : List.Forall₂ (fun s (i : Nat) => tables.names.get? (i : Number) = some s)
    node.map.names nameIndices

/-- The tables have grown. -/
structure Grown (tables' tables : Tables) : Prop where
  sources : tables'.sources.names.Extends tables.sources.names
  names : tables'.names.Extends tables.names

variable {node : GeneratedText} {results : List (Option Composition)}
  {resolvers : List Resolver} {nameIndices : List Nat} {tables tables' : Tables}

theorem Grown.refl (tables : Tables) : Grown tables tables := ⟨.refl _, .refl _⟩

theorem Grown.trans {a b c : Tables} (hab : Grown a b) (hbc : Grown b c) : Grown a c :=
  ⟨hab.sources.trans hbc.sources, hab.names.trans hbc.names⟩

theorem Ready.of_grown (h : Ready node results resolvers nameIndices tables)
    (hgrown : Grown tables' tables) : Ready node results resolvers nameIndices tables' :=
  ⟨h.resolvers.imp fun _ _ hs => hs.of_extends hgrown.sources,
    h.names.imp fun _ _ hn => TextTable.get?_of_extends hgrown.names hn⟩

/-- The index of a location's name in the tables. -/
def nameIndex (nameIndices : List Nat) (o : Location) : Option Number :=
  (o.name.bind fun n => n.toNat?.bind fun i => nameIndices[i]?).map fun n : Nat => (n : Number)

/-- The name of a location as the map has it. -/
def nameOf (node : GeneratedText) (o : Location) : Option Text :=
  o.name.bind fun n => n.toNat?.bind fun i => node.map.names[i]?

/-- The name of a location is in the tables under its index. -/
theorem Ready.nameIndex_spec (h : Ready node results resolvers nameIndices tables) (o : Location) :
    (∀ n ∈ nameIndex nameIndices o, (tables.names.get? n).isSome) ∧
      (nameIndex nameIndices o).bind tables.names.get? = node.nameOf o := by
  unfold nameIndex nameOf
  cases ho : o.name with
  | none => simp
  | some n =>
    cases hi : n.toNat? with
    | none => simp [hi]
    | some i =>
      rcases getElem?_of_forall₂ h.names i with ⟨hs, hn⟩ | ⟨s, k, hs, hk, hget⟩
      · simp [hi, hs, hn]
      · simp [hi, hs, hk, hget]

/-- The origin in words that a location of the map resolves to, if its source is listed: the source
with the source root in front and the name as the map has them, traced through the result that stands
for the source. -/
def originOf? (node : GeneratedText) (results : List (Option Composition)) (o : Location) :
    Option OriginPosition := do
  let index ← o.source.toNat?
  let (source, result) ← (node.map.qualifiedSources.zip results)[index]?
  some (traceThrough result ⟨some source, o.line, o.column, node.nameOf o⟩)

/-- A resolver stands for the source at its index. -/
theorem Ready.exists_entry (h : Ready node results resolvers nameIndices tables) {index : Nat}
    {r : Resolver} (hr : resolvers[index]? = some r) :
    ∃ source result, (node.map.qualifiedSources.zip results)[index]? = some (source, result) ∧
      StandsFor tables.sources.names (source, result) r := by
  rcases getElem?_of_forall₂ h.resolvers index with ⟨-, hnone⟩ | ⟨entry, r', hentry, hr', hstands⟩
  · rw [hr] at hnone
    cases hnone
  · obtain rfl := Option.some.inj (hr.symm.trans hr')
    exact ⟨entry.1, entry.2, hentry, hstands⟩

/-- A location of a source that is not generated has its origin there. -/
theorem Ready.originOf?_known (h : Ready node results resolvers nameIndices tables) {o : Location}
    {index i : Nat} (hindex : o.source.toNat? = some index)
    (hr : resolvers[index]? = some (.known i)) :
    ∃ source, tables.sources.names.get? (i : Number) = some source ∧
      node.originOf? results o = some ⟨some source, o.line, o.column, node.nameOf o⟩ := by
  obtain ⟨source, result, hentry, rfl, hget⟩ := h.exists_entry hr
  refine ⟨source, hget, ?_⟩
  simp [originOf?, hindex, hentry, traceThrough]

/-- A location of a generated source is traced through the result for it. -/
theorem Ready.originOf?_traced (h : Ready node results resolvers nameIndices tables) {o : Location}
    {index : Nat} {source : Text} {result : Composition} (hindex : o.source.toNat? = some index)
    (hr : resolvers[index]? = some (.traced source result)) :
    node.originOf? results o =
      some (traceThrough (some result) ⟨some source, o.line, o.column, node.nameOf o⟩) := by
  obtain ⟨_, _, hentry, hstands⟩ := h.exists_entry hr
  obtain ⟨rfl, rfl⟩ := Prod.mk.inj hstands
  simp [originOf?, hindex, hentry]

/-! ## How locations resolve -/

/-- How a location resolves, and what it adds to the tables.  It stays where it is in a source that is
not generated and at a gap of the result for a generated one; otherwise it moves to the location that
the result has for it, and takes the name along if there is one. -/
inductive Resolves (node : GeneratedText) (resolvers : List Resolver) (nameIndices : List Nat)
    (tables : Tables) (o : Location) : Location → Tables → Option Gap → Prop
  | known {index i : Nat} (hindex : o.source.toNat? = some index)
      (hr : resolvers[index]? = some (.known i)) :
      Resolves node resolvers nameIndices tables o
        ⟨(i : Number), o.line, o.column, nameIndex nameIndices o⟩ tables none
  | gap {index : Nat} {source : Text} {result : Composition}
      (hindex : o.source.toNat? = some index)
      (hr : resolvers[index]? = some (.traced source result))
      (htrace : result.mappings.trace? o.line o.column = none) {content : Option Text}
      (hcontent : content = (node.contentOf index source).or (some result.text)) :
      Resolves node resolvers nameIndices tables o
        ⟨((tables.sources.intern source content).1 : Number), o.line, o.column,
          nameIndex nameIndices o⟩
        { tables with sources := (tables.sources.intern source content).2 }
        (some ⟨source, o.line, o.column, result.text⟩)
  | moved {index : Nat} {source : Text} {result : Composition} {t : Location} {s : Text}
      (hindex : o.source.toNat? = some index)
      (hr : resolvers[index]? = some (.traced source result))
      (htrace : result.mappings.trace? o.line o.column = some t)
      (hsource : result.sources.names.get? t.source = some s) (hn : t.name = none)
      {content : Option Text} (hcontent : content = result.sources.content? t.source) :
      Resolves node resolvers nameIndices tables o
        ⟨((tables.sources.intern s content).1 : Number), t.line, t.column, nameIndex nameIndices o⟩
        { tables with sources := (tables.sources.intern s content).2 } none
  | renamed {index : Nat} {source : Text} {result : Composition} {t : Location} {s name : Text}
      {n : Number} (hindex : o.source.toNat? = some index)
      (hr : resolvers[index]? = some (.traced source result))
      (htrace : result.mappings.trace? o.line o.column = some t)
      (hsource : result.sources.names.get? t.source = some s) (hn : t.name = some n)
      (hname : result.names.get? n = some name) {content : Option Text}
      (hcontent : content = result.sources.content? t.source) :
      Resolves node resolvers nameIndices tables o
        ⟨((tables.sources.intern s content).1 : Number), t.line, t.column,
          some ((tables.names.intern name).1 : Number)⟩
        ⟨(tables.sources.intern s content).2, (tables.names.intern name).2⟩ none

/-- **A location that is resolved resolves in one of these ways.** -/
theorem resolves_of_resolveLocation {o o' : Location} {gap : Option Gap}
    (h : node.resolveLocation resolvers nameIndices tables o = .ok (o', tables', gap)) :
    Resolves node resolvers nameIndices tables o o' tables' gap := by
  unfold resolveLocation at h
  simp only at h
  cases hindex : o.source.toNat? with
  | none => simp [hindex] at h
  | some index =>
    cases hr : resolvers[index]? with
    | none => simp [hindex, hr] at h
    | some r =>
      simp only [hindex, hr] at h
      cases r with
      | known i =>
        cases h
        exact .known hindex hr
      | traced source result =>
        simp only at h
        cases htrace : result.mappings.trace? o.line o.column with
        | none =>
          rw [htrace] at h
          cases h
          exact .gap hindex hr htrace rfl
        | some t =>
          simp only [htrace] at h
          cases hs : result.sources.names.get t.source with
          | error e => simp [hs] at h
          | ok s =>
            have hsource := TextTable.get_eq_ok_iff.mp hs
            simp only [hs] at h
            cases hn : t.name with
            | none =>
              rw [hn] at h
              cases h
              exact .moved hindex hr htrace hsource hn rfl
            | some n =>
              simp only [hn] at h
              cases hname : result.names.get n with
              | error e => simp [hname] at h
              | ok name =>
                rw [hname] at h
                cases h
                exact .renamed hindex hr htrace hsource hn (TextTable.get_eq_ok_iff.mp hname) rfl

/-- How entries resolve one after the other, each with the tables that those in front have left. -/
inductive ResolvesAll (node : GeneratedText) (resolvers : List Resolver) (nameIndices : List Nat) :
    Tables → MappingTable → MappingTable → Tables → Prop
  | nil (tables : Tables) : ResolvesAll node resolvers nameIndices tables [] [] tables
  | still {tables tables' : Tables} {m : Mapping} {rest others : MappingTable}
      (ho : m.origin = none)
      (hrest : ResolvesAll node resolvers nameIndices tables rest others tables') :
      ResolvesAll node resolvers nameIndices tables (m :: rest)
        ({ m with origin := none } :: others) tables'
  | traced {tables middle tables' : Tables} {m : Mapping} {rest others : MappingTable}
      {o o' : Location} {gap : Option Gap} (ho : m.origin = some o)
      (hlocation : Resolves node resolvers nameIndices tables o o' middle gap)
      (hrest : ResolvesAll node resolvers nameIndices middle rest others tables') :
      ResolvesAll node resolvers nameIndices tables (m :: rest)
        ({ m with origin := some o' } :: others) tables'

/-- Entries that are resolved resolve one after the other. -/
theorem resolvesAll_of_resolveFrom {entries entries' : MappingTable}
    (h : (node.resolveFrom resolvers nameIndices tables entries).2 = .ok (entries', tables')) :
    ResolvesAll node resolvers nameIndices tables entries entries' tables' := by
  induction entries generalizing entries' tables with
  | nil =>
    cases h
    exact .nil _
  | cons m rest ih =>
    unfold resolveFrom at h
    cases ho : m.origin with
    | none =>
      simp only [ho] at h
      obtain ⟨⟨others, last⟩, hothers, hentries⟩ := map_eq_ok_iff.mp h
      obtain ⟨rfl, rfl⟩ := Prod.mk.inj hentries
      exact .still ho (ih hothers)
    | some o =>
      simp only [ho] at h
      cases hlocation : node.resolveLocation resolvers nameIndices tables o with
      | error e => simp [hlocation] at h
      | ok resolved =>
        obtain ⟨o', middle, gap⟩ := resolved
        simp only [hlocation] at h
        obtain ⟨⟨others, last⟩, hothers, hentries⟩ := map_eq_ok_iff.mp h
        obtain ⟨rfl, rfl⟩ := Prod.mk.inj hentries
        exact .traced ho (resolves_of_resolveLocation hlocation) (ih hothers)

/-! ## What a location resolves to -/

/-- What a location resolves to. -/
structure Resolved (node : GeneratedText) (results : List (Option Composition)) (tables : Tables)
    (o o' : Location) : Prop where
  known : o'.KnownIn tables.sources.names tables.names
  origin : node.originOf? results o = some (o'.describeIn tables.sources.names tables.names)

theorem Resolved.of_grown {o o' : Location} (h : Resolved node results tables o o')
    (hgrown : Grown tables' tables) : Resolved node results tables' o o' :=
  ⟨h.known.of_extends hgrown.sources hgrown.names,
    h.origin.trans (congrArg some (Location.describeIn_of_extends h.known hgrown.sources
      hgrown.names).symm)⟩

theorem resolved_of_get? {o : Location} {source line column : Number} {name : Option Number}
    {s : Text} {n : Option Text}
    (horigin : node.originOf? results o = some ⟨some s, line, column, n⟩)
    (hsource : tables.sources.names.get? source = some s)
    (hknown : ∀ i ∈ name, (tables.names.get? i).isSome) (hname : name.bind tables.names.get? = n) :
    Resolved node results tables o ⟨source, line, column, name⟩ := by
  refine ⟨⟨by simp [hsource], hknown⟩, ?_⟩
  rw [horigin, Location.describeIn, hsource, hname]

/-- A location resolves to its origin. -/
theorem Resolves.spec (h : Ready node results resolvers nameIndices tables) {o o' : Location}
    {gap : Option Gap} (hresolves : Resolves node resolvers nameIndices tables o o' tables' gap) :
    Grown tables' tables ∧ Resolved node results tables' o o' := by
  obtain ⟨hknown, hname⟩ := h.nameIndex_spec o
  cases hresolves with
  | known hindex hr =>
    obtain ⟨source, hget, horigin⟩ := h.originOf?_known hindex hr
    exact ⟨.refl _, resolved_of_get? horigin hget hknown hname⟩
  | gap hindex hr htrace _ =>
    -- a gap keeps the position in the generated source
    have horigin := h.originOf?_traced hindex hr
    rw [traceThrough_of_gap htrace] at horigin
    exact ⟨⟨ContentTable.extends_intern _ _ _, .refl _⟩,
      resolved_of_get? horigin (ContentTable.get?_intern _ _ _) hknown hname⟩
  | moved hindex hr htrace hsource hn _ =>
    -- the name that the map has
    have horigin := h.originOf?_traced hindex hr
    rw [traceThrough_of_trace htrace, hsource, hn, Option.bind_none, Option.none_or] at horigin
    exact ⟨⟨ContentTable.extends_intern _ _ _, .refl _⟩,
      resolved_of_get? horigin (ContentTable.get?_intern _ _ _) hknown hname⟩
  | renamed hindex hr htrace hsource hn htext _ =>
    -- the name that the result has, interned behind the names of the map
    have horigin := h.originOf?_traced hindex hr
    rw [traceThrough_of_trace htrace, hsource, hn, Option.bind_some, htext, Option.some_or] at horigin
    refine ⟨⟨ContentTable.extends_intern _ _ _, TextTable.extends_intern _ _⟩,
      resolved_of_get? horigin (ContentTable.get?_intern _ _ _) ?_ ?_⟩
    · intro i hi
      obtain rfl := Option.some.inj hi
      rw [TextTable.get?_intern]
      rfl
    · rw [Option.bind_some, TextTable.get?_intern]

/-! ## All entries -/

/-- What an entry resolves to: an entry at its generated position, with the origin that its origin
resolves to. -/
structure ResolvedEntry (node : GeneratedText) (results : List (Option Composition))
    (tables : Tables) (m m' : Mapping) : Prop where
  line : m'.line = m.line
  column : m'.column = m.column
  origin : Option.Rel (Resolved node results tables) m.origin m'.origin

/-- **Entries are resolved one by one.**  What one entry was resolved to stays what it is while the
others are resolved. -/
theorem ResolvesAll.spec {entries entries' : MappingTable}
    (hresolves : ResolvesAll node resolvers nameIndices tables entries entries' tables')
    (h : Ready node results resolvers nameIndices tables) :
    Grown tables' tables ∧ List.Forall₂ (ResolvedEntry node results tables') entries entries' := by
  induction hresolves with
  | nil => exact ⟨.refl _, .nil⟩
  | still ho _ ih =>
    obtain ⟨hgrown, hrest⟩ := ih h
    exact ⟨hgrown, .cons ⟨rfl, rfl, by rw [ho]; exact .none⟩ hrest⟩
  | traced ho hlocation _ ih =>
    obtain ⟨hfirst, hresolved⟩ := hlocation.spec h
    -- the tables that the others find are larger, and those in the end larger still
    obtain ⟨hgrown, hrest⟩ := ih (h.of_grown hfirst)
    exact ⟨hgrown.trans hfirst,
      .cons ⟨rfl, rfl, by rw [ho]; exact .some (hresolved.of_grown hgrown)⟩ hrest⟩

/-- The tables that the entries of a map start from have what its locations need. -/
theorem ready_start (node : GeneratedText) (results : List (Option Composition)) :
    Ready node results (node.resolversFrom 0 {} (node.map.qualifiedSources.zip results)).1
      (TextTable.internAll {} node.map.names).1
      ⟨(node.resolversFrom 0 {} (node.map.qualifiedSources.zip results)).2,
        (TextTable.internAll {} node.map.names).2⟩ :=
  ⟨(resolversFrom_spec node 0 {} _).2, TextTable.forall₂_internAll _ _⟩

/-! ## Entries inside the text -/

/-- Whether an entry is inside a text of less than 2^53 units can be told by the rounded sum of its column
and the start of its line. -/
theorem isInside_eq_add_le {t : Text} {m : Mapping} {line start : Nat} (hline : m.line = (line : Number))
    (hcolumn : m.column.Count) (hstart : t.lineOffsets[line]? = some start)
    (ht : t.length < Number.exactLimit) :
    isInside t m = decide ((start : Number) + m.column ≤ (t.lineEnd line : Number)) := by
  have hend := Nat.lt_of_le_of_lt (Text.lineEnd_le_length t line) ht
  simp only [isInside, hline, Number.toNat?_natCast, hstart]
  exact decide_eq_decide.mpr (hcolumn.moved_le_iff hend)

/-- An entry inside a text, with a generated line and column as they are decoded, stands at an offset
of the text. -/
theorem inText_of_isInside {t : Text} {m : Mapping}
    (hcounts : (∃ line : Nat, m.line = (line : Number)) ∧ m.column.Count)
    (h : isInside t m = true) : m.InText t := by
  obtain ⟨⟨line, hline⟩, hcolumn⟩ := hcounts
  simp only [isInside, hline, Number.toNat?_natCast] at h
  cases hstart : t.lineOffsets[line]? with
  | none => simp [hstart] at h
  | some start =>
    simp only [hstart, decide_eq_true_eq] at h
    rcases hcolumn with hnan | hinf | ⟨column, hcolumn⟩
    · simp [hnan, Number.moved] at h
    · rw [hinf] at h
      cases h
    · rw [hcolumn, Number.moved_natCast, Number.natCast_le, Nat.add_comm] at h
      refine ⟨start + column, Nat.le_trans h (Text.lineEnd_le_length t line), ?_⟩
      unfold Composition.entryAt
      rw [Text.positionOf_of_le_lineEnd hstart h]
      simp only [← hline, ← hcolumn]

/-- A position inside a line is inside the text. -/
theorem isInside_of_le {t : Text} {m : Mapping} {line start column : Nat}
    (hstart : t.lineOffsets[line]? = some start) (hcolumn : start + column ≤ t.lineEnd line)
    (hm : m.Placed) (hcovers : m.place.covers ⟨line, column⟩ = true) : isInside t m = true := by
  obtain ⟨hline, hle⟩ := Text.Position.covers_iff.mp hcovers
  simp only at hline hle
  simp only [isInside, hm.line, Number.toNat?_natCast, hline, hstart, hm.column,
    Number.moved_natCast, Number.natCast_le, decide_eq_true_eq]
  omega

end GeneratedText

/-! ## The result -/

namespace Composition

open GeneratedText

variable {node : GeneratedText} {results : List (Option Composition)} {table : MappingTable}
  {c : Composition}

/-- A result that a map was traced to has what the entries inside the text have resolved to. -/
theorem resolvesAll_of_generate (h : (generate node results table).2 = .ok c) :
    ∃ entries : MappingTable, c.text = node.text ∧ c.mappings = entries.normalForm ∧
      ResolvesAll node (node.resolversFrom 0 {} (node.map.qualifiedSources.zip results)).1
        (TextTable.internAll {} node.map.names).1
        ⟨(node.resolversFrom 0 {} (node.map.qualifiedSources.zip results)).2,
          (TextTable.internAll {} node.map.names).2⟩
        (table.filter (isInside node.text)) entries ⟨c.sources, c.names⟩ := by
  unfold generate at h
  obtain ⟨⟨entries, tables⟩, hentries, rfl⟩ := map_eq_ok_iff.mp h
  exact ⟨entries, rfl, rfl, resolvesAll_of_resolveFrom hentries⟩

/-- The entries of a result that a map was traced to. -/
theorem generate_spec (h : (generate node results table).2 = .ok c) :
    ∃ entries : MappingTable, c.text = node.text ∧ c.mappings = entries.normalForm ∧
      List.Forall₂ (ResolvedEntry node results ⟨c.sources, c.names⟩)
        (table.filter (isInside node.text)) entries := by
  obtain ⟨entries, htext, hmappings, hresolves⟩ := resolvesAll_of_generate h
  exact ⟨entries, htext, hmappings, (hresolves.spec (ready_start node results)).2⟩

/-- What an entry inside the text refers to is a source of the map. -/
theorem exists_originOf? (h : (generate node results table).2 = .ok c) {m : Mapping}
    (hm : m ∈ table) (hinside : isInside node.text m = true) {o : Location}
    (ho : m.origin = some o) : ∃ own, node.originOf? results o = some own := by
  obtain ⟨entries, -, -, hentries⟩ := generate_spec h
  obtain ⟨m', -, hresolved⟩ :=
    exists_mem_of_forall₂ hentries.flip (List.mem_filter.mpr ⟨hm, hinside⟩)
  have horigin := hresolved.origin
  rw [ho] at horigin
  generalize m'.origin = o' at horigin
  cases horigin with
  | some hresolved => exact ⟨_, hresolved.origin⟩

/-- **Tracing a decoded map gives a proper result.** -/
theorem generate_proper (h : (generate node results table).2 = .ok c)
    (hcounts : ∀ m ∈ table, (∃ line : Nat, m.line = (line : Number)) ∧ m.column.Count) :
    c.Proper := by
  obtain ⟨entries, htext, hmappings, hentries⟩ := generate_spec h
  have hresolved : ∀ m' ∈ entries, ∃ m, m.InText c.text ∧
      ResolvedEntry node results ⟨c.sources, c.names⟩ m m' := by
    intro m' hm'
    obtain ⟨m, hm, hresolved⟩ := exists_mem_of_forall₂ hentries hm'
    obtain ⟨hmem, hinside⟩ := List.mem_filter.mp hm
    exact ⟨m, htext ▸ inText_of_isInside (hcounts m hmem) hinside, hresolved⟩
  have hmarked : MarkedBy c.text c.sources.names c.names entries
      (entries.map (Mapping.markIn c.text c.describe)) := by
    refine ⟨?_, ?_, rfl⟩
    · intro m' hm'
      obtain ⟨m, ⟨offset, hle, hm⟩, hline, hcolumn, -⟩ := hresolved m' hm'
      refine ⟨offset, hle, ?_⟩
      rw [hm] at hline hcolumn
      cases m'
      exact Mapping.mk.injEq .. ▸ ⟨hline, hcolumn, rfl⟩
    · intro m' hm' o' ho'
      obtain ⟨m, -, -, -, horigin⟩ := hresolved m' hm'
      rw [Option.mem_def.mp ho'] at horigin
      generalize m.origin = o at horigin
      cases horigin with
      | some hresolved => exact hresolved.known
  exact proper_of_normalForm hmappings hmarked

/-- **The origin of a position in the text.**  It is what the last entry at or before the position on
its line resolves to, moved along by the distance from that entry. -/
theorem originAt_generate (h : (generate node results table).2 = .ok c) (hplaced : table.Placed)
    (hsorted : table.Sorted) {line start column : Nat}
    (hstart : node.text.lineOffsets[line]? = some start)
    (hcolumn : start + column ≤ node.text.lineEnd line) :
    c.originAt (line : Number) (column : Number) =
      (table.filter fun m => m.place.covers ⟨line, column⟩).getLast?.bind fun m =>
        m.origin.bind fun o =>
          (node.originOf? results o).map (OriginPosition.advance · (column - m.place.column)) := by
  obtain ⟨entries, -, hmappings, hentries⟩ := generate_spec h
  have hplace : ∀ m m', ResolvedEntry node results ⟨c.sources, c.names⟩ m m' → m'.place = m.place :=
    fun m m' hm => by rw [Mapping.place, Mapping.place, hm.line, hm.column]
  have hplaced' : entries.Placed := by
    intro m' hm'
    obtain ⟨m, hm, hresolved⟩ := exists_mem_of_forall₂ hentries hm'
    have hm := hplaced m (List.mem_filter.mp hm).1
    have hsame := hplace m m' hresolved
    exact ⟨by rw [hresolved.line, hm.line, hsame], by rw [hresolved.column, hm.column, hsame]⟩
  -- what covers the position stands inside the text
  have hinside : MappingTable.cover? (table.filter (isInside node.text)) ⟨line, column⟩ =
      (table.filter fun m => m.place.covers ⟨line, column⟩).getLast? := by
    rw [← hsorted.cover?_eq, MappingTable.cover?, latest_filter, MappingTable.cover?]
    refine latest_congr (fun m hm => ?_) fun _ _ _ _ _ _ => Iff.rfl
    cases hc : m.place.covers ⟨line, column⟩ with
    | false => simp
    | true => rw [isInside_of_le hstart hcolumn (hplaced m hm) hc, Bool.and_true]
  -- entries are resolved at their places, so the resolved one of the entry that counts counts
  have hcover : Option.Rel (ResolvedEntry node results ⟨c.sources, c.names⟩)
      ((table.filter fun m => m.place.covers ⟨line, column⟩).getLast?)
      (entries.cover? ⟨line, column⟩) := by
    rw [← hinside]
    apply latest_of_forall₂ hentries
    intro m m' hm
    rw [hplace m m' hm]
    exact ⟨rfl, rfl⟩
  rw [originAt, hmappings, MappingTable.trace?_normalForm hplaced' ⟨line, column⟩,
    MappingTable.origin?]
  generalize (table.filter fun m => m.place.covers ⟨line, column⟩).getLast? = found at hcover
  generalize entries.cover? ⟨line, column⟩ = found' at hcover
  cases hcover with
  | none => rfl
  | @some m m' hm =>
    have horigin := hm.origin
    simp only [Option.bind_some, hplace m m' hm]
    generalize m.origin = o at horigin
    generalize m'.origin = o' at horigin
    cases horigin with
    | none => rfl
    | some hresolved =>
      simp [hresolved.origin, describe, Location.describeIn_advance]

end Composition

end Provenance
