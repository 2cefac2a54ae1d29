/-
# Building source trees

A source is described by a plan: how it is put together from texts, maps, sources that have been
defined before, and further plans.  Building a plan checks it and gives its nodes their identities;
the parts of a plan are built in the order in which they are written.
-/
import Provenance.Session.Maps

namespace Provenance

mutual

/-- A plan for a source. -/
inductive Plan where
  /-- A source that has been defined under a name. -/
  | ref (name : Text)
  | plain (text : Text)
  | file (text name : Text)
  | generated (text name : Text) (map : MapPlan) (sourceText : Option Text)
      (innerMap : Option MapPlan) (inputs : List (Text × Plan)) (withholdText : Bool)
  | joined (children : List Plan)
  | edited (base : Plan) (replacements : List Replacement)
  | kept (child : Plan)

/-- A plan for a source map. -/
inductive MapPlan where
  /-- A map that is read from a document. -/
  | document (json : Json)
  /-- The map of a source. -/
  | mapOf (source : Plan) (options : OutputOptions)

end

namespace Session

/-! ## Nodes -/

/-- The identity of a new node. -/
def freshId : Action NodeId := modifyGet fun s => (s.nextId, { s with nextId := s.nextId + 1 })

/-- Sources joined end to end. -/
def joinedNode (children : List Source) : Action Source := do
  let id ← freshId
  pure (.joined id (Source.flattenAll children))

/-- A source whose results are remembered. -/
def keptNode (child : Source) : Action Source :=
  match child with
  | .kept id child => pure (.kept id child)
  | child => do
    let id ← freshId
    pure (.kept id child)

/-- A source with replacements made. -/
def editedNode (base : Source) (rs : List Replacement) : Action Source := do
  let t ← (textOf base).act
  let edits ← settle .construction (checkReplacements t rs)
  let id ← freshId
  pure (.edited id base edits)

/-- A source map that has been made already, or that is still a document. -/
inductive MapValue where
  | made (m : SourceMap)
  | document (json : Json)

/-- The source map of a value. -/
def loadMap : MapValue → Action SourceMap
  | .made m => pure m
  | .document json => do
    let (m, notices) ← settle .load (SourceMap.ofJson json)
    modify fun s => s.tell notices
    pure m

/-- The source map of a value, if it is fit for the text called `name`. -/
def loadMapFor (name : Text) (v : MapValue) : Action SourceMap := do
  let m ← loadMap v
  let table ← (decodeKept m.mappings).adaptExcept .decode
  settle .construction (checkEntries name m.sources.length m.names.length table)
  pure m

/-- The node of the source called `name`, which is generated itself. -/
def innerNode (name : Text) (sourceText : Option Text) (innerMap : MapValue) : Action Source := do
  match sourceText with
  | none => throw (.construction (.innerMapAlone name))
  | some t => do
    let m ← loadMapFor name innerMap
    let id ← freshId
    pure (.generated id { text := t, name := name, map := m } [])

/-- A generated text with a source map.  A source that is generated itself is put under its name, as one
of the further sources or, under `Inputs.prototypeKey`, as a source that they inherit. -/
def generatedNode (text name : Text) (map : MapValue) (sourceText : Option Text)
    (innerMap : Option MapValue) (inputs : List (Text × Source)) (withholdText : Bool) :
    Action Source := do
  let m ← loadMapFor name map
  let (inputs, inherits) ←
    match innerMap with
    | none => pure (inputs, false)
    | some v => do
      let inner ← innerNode name sourceText v
      pure (inputs ++ [(name, inner)],
        name = Inputs.prototypeKey && (inputs.lookup name).isNone)
  let id ← freshId
  pure (.generated id ⟨text, name, m, sourceText, withholdText, inherits⟩ (Inputs.ofList inputs))

/-! ## Plans -/

/-- The sources that have been defined, by their names. -/
abbrev Definitions := List (Text × Source)

mutual

/-- Builds a source. -/
def build (defined : Definitions) : Plan → Action Source
  | .ref name =>
    match defined.lookup name with
    | some s => pure s
    | none => throw (.unknownSource name)
  | .plain t => pure (.plain t)
  | .file t name => pure (.file t name)
  | .generated t name map sourceText innerMap inputs withholdText => do
    let map ← buildMap defined map
    let innerMap ← buildInner defined innerMap
    let inputs ← buildInputs defined inputs
    generatedNode t name (map.getD (.document .null)) sourceText innerMap inputs
      withholdText
  | .joined children => do
    let children ← buildAll defined children
    joinedNode children
  | .edited base rs => do
    let base ← build defined base
    editedNode base rs
  | .kept child => do
    let child ← build defined child
    keptNode child

/-- Builds some sources. -/
def buildAll (defined : Definitions) : List Plan → Action (List Source)
  | [] => pure []
  | p :: rest => do
    let first ← build defined p
    let others ← buildAll defined rest
    pure (first :: others)

/-- Builds further sources. -/
def buildInputs (defined : Definitions) : List (Text × Plan) → Action (List (Text × Source))
  | [] => pure []
  | (key, p) :: rest => do
    let first ← build defined p
    let others ← buildInputs defined rest
    pure ((key, first) :: others)

/-- Makes a source map; none if the source that should give it has none. -/
def buildMap (defined : Definitions) : MapPlan → Action (Option MapValue)
  | .document json => pure (some (.document json))
  | .mapOf p options => do
    let s ← build defined p
    let m ← mapOf s options
    pure (m.map .made)

/-- Makes a source map, if there is a plan for one. -/
def buildInner (defined : Definitions) : Option MapPlan → Action (Option MapValue)
  | none => pure none
  | some p => buildMap defined p

end

end Session

end Provenance
