/-
# Source trees

A source is a text together with what is known about where it comes from.  Sources are put together
from smaller ones: joined end to end, edited, or traced through a source map to further sources.

Nodes that can be shared carry an identity.  It has no influence on what a source means, and decides
only which results of one computation are remembered for another.

The main facts:

* `flattenAll_append` : flattening a list of sources is flattening its parts.
-/
import Provenance.Assoc
import Provenance.SourceMap.Basic
import Provenance.Tree.Replacement

namespace Provenance

/-- The identity of a node. -/
abbrev NodeId := Nat

/-- A generated text with a source map. -/
structure GeneratedText where
  text : Text
  /-- The source that the map points to. -/
  name : Text
  map : SourceMap
  /-- The content of the source called `name`, where the map has none. -/
  sourceText : Option Text := none
  /-- Whether the content of the source called `name` is left out. -/
  withholdText : Bool := false
  /-- Whether the further source under `Inputs.prototypeKey` is inherited: found under its key, but not
  listed. -/
  inherits : Bool := false
  deriving DecidableEq, Repr

/-- A source. -/
inductive Source where
  /-- A text that comes from nowhere. -/
  | plain (text : Text)
  /-- The text of a file, which maps to itself. -/
  | file (text name : Text)
  /-- A generated text.  Some of the sources of its map may be generated themselves. -/
  | generated (id : NodeId) (node : GeneratedText) (inputs : List (Text × Source))
  /-- Sources joined end to end. -/
  | joined (id : NodeId) (children : List Source)
  /-- A source with edits made. -/
  | edited (id : NodeId) (base : Source) (edits : List Edit)
  /-- A source whose results are remembered. -/
  | kept (id : NodeId) (child : Source)
  deriving Inhabited

/-- The kinds of sources. -/
inductive SourceKind where
  | plain
  | file
  | generated
  | joined
  | edited
  | kept
  deriving DecidableEq, Repr

/-- The word for a kind. -/
def SourceKind.word : SourceKind → Text
  | plain => "raw"
  | file => "original"
  | generated => "mapped"
  | joined => "concat"
  | edited => "replace"
  | kept => "cached"

namespace Source

/-- The kind of a source. -/
def kind : Source → SourceKind
  | plain _ => .plain
  | file _ _ => .file
  | generated _ _ _ => .generated
  | joined _ _ => .joined
  | edited _ _ _ => .edited
  | kept _ _ => .kept

/-- The parts of a source that is joined from several, and otherwise the source alone. -/
def parts : Source → List Source
  | joined _ children => children
  | s => [s]

/-- The parts of some sources. -/
def flattenAll (sources : List Source) : List Source := sources.flatMap parts

/-- Flattening a list of sources is flattening its parts. -/
theorem flattenAll_append (xs ys : List Source) :
    flattenAll (xs ++ ys) = flattenAll xs ++ flattenAll ys := by
  unfold flattenAll
  exact List.flatMap_append

end Source

/-! ## Further sources of a map -/

namespace Inputs

/-- The largest array index. -/
def maxIndexKey : Nat := 0xFFFFFFFE

/-- The number that a key is the canonical decimal text of, if it is an array index. -/
def indexKey? (key : Text) : Option Nat :=
  let n := key.foldl (fun n u => 10 * n + (u.toNat - 48)) 0
  if key ≠ [] ∧ key.length ≤ 10 ∧ n ≤ maxIndexKey ∧ key = Text.ofNat n then some n else none

/-- Entries in the order in which keys are listed: array indices first, by their size, then the
other keys in their order. -/
def arrange {α : Type} (entries : List (Text × α)) : List (Text × α) :=
  let indices := entries.filterMap fun e => (indexKey? e.1).map fun n => (n, e)
  let others := entries.filter fun e => (indexKey? e.1).isNone
  (List.mergeSort indices fun a b => a.1 ≤ b.1).map Prod.snd ++ others

/-- Entries with one for each key: a repeated key has its last value. -/
def ofList {α : Type} (entries : List (Text × α)) : List (Text × α) :=
  arrange (entries.foldl (fun found e => Assoc.insert e.1 e.2 found) [])

/-- The key that names the prototype of a table of further sources. -/
def prototypeKey : Text := "__proto__"

/-- The members that every table of further sources inherits. -/
def members : List Text :=
  [prototypeKey, "__defineGetter__", "__defineSetter__", "__lookupGetter__", "__lookupSetter__",
    "constructor", "hasOwnProperty", "isPrototypeOf", "propertyIsEnumerable", "toLocaleString",
    "toString", "valueOf"]

/-- The fields of a generated text that a table inherits with it. -/
def fieldMembers : List Text := ["kind", "name", "map", "upstream"]

end Inputs

namespace GeneratedText

open Inputs (prototypeKey members fieldMembers)

/-- Whether a key of the further sources is listed. -/
def lists (node : GeneratedText) (key : Text) : Bool := !(node.inherits && key = prototypeKey)

/-- The further sources that are listed. -/
def listed {α : Type} (node : GeneratedText) (inputs : List (Text × α)) : List (Text × α) :=
  inputs.filter fun input => node.lists input.1

/-- What is found under a key where no further source stands: nothing, or a value that stands for a
source or does not.  The values are members that every table inherits, and the fields of the source that
a table may inherit; its text is that of the source called `name`. -/
def member? (node : GeneratedText) (key : Text) : Option Bool :=
  if node.inherits && key ∈ fieldMembers then some true
  else if node.inherits && key = "text" then some (node.sourceText ≠ some [])
  else if node.inherits && key = "removeOriginalSource" then some false
  else if key ∈ members then some true
  else none

/-- Whether what is found under a key stands for a source, if anything is found. -/
def found? {α : Type} (node : GeneratedText) (inputs : List (Text × α)) (key : Text) : Option Bool :=
  if (inputs.lookup key).isSome then some true else node.member? key

/-- The key under which something is found that stands for a source of the map: the source with the
source root in front, or else the source itself. -/
def key? {α : Type} (node : GeneratedText) (inputs : List (Text × α)) (qualified plain : Text) :
    Option Text :=
  match node.found? inputs qualified with
  | some stands => if stands then some qualified else none
  | none => if node.found? inputs plain = some true then some plain else none

end GeneratedText

end Provenance
