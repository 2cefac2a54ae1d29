/-
# Content hashes of sources

The content hash of a source is a hash of everything that decides its text and its mappings.  A
source whose results are remembered has the content hash of what it wraps.

The main facts:

* `contentHash_kept` : remembering changes no content hash.
-/
import Provenance.Digest.ContentHash
import Provenance.SourceMap.Document
import Provenance.Tree.Basic

namespace Provenance

namespace ContentHash

/-- A text that may be missing as a field: a missing one differs from an empty one. -/
def markOptional : Option Text → Text
  | none => "-"
  | some t => ("+" : Text) ++ t

/-- The fields of an edit. -/
def editFields (e : Edit) : List Text :=
  [Text.ofNat e.start, Text.ofNat e.stop, e.content, markOptional e.name]

/-- The fields of further sources, in the order of their keys. -/
def inputFields (hashes : List (Text × ContentHash)) : List Text :=
  (List.mergeSort hashes fun a b => Text.le a.1 b.1).flatMap fun (key, hash) => [key, hash]

/-- The fields of a text that comes from nowhere. -/
def plainFields (text : Text) : List Text := ["raw", text]

/-- The fields of a file. -/
def fileFields (text name : Text) : List Text := ["original", name, text]

/-- The fields of a generated text, given the content hashes of its further sources. -/
def generatedFields (node : GeneratedText) (inputs : List (Text × ContentHash)) : List Text :=
  "mapped" :: node.name :: node.text :: node.map.toText :: markOptional node.sourceText ::
    (if node.withholdText then "remove" else "keep") :: inputFields inputs

/-- The fields of joined sources, given their content hashes. -/
def joinedFields (children : List ContentHash) : List Text := "concat" :: children

/-- The fields of an edited source, given the content hash of the source. -/
def editedFields (base : ContentHash) (edits : List Edit) : List Text :=
  "replace" :: base :: edits.flatMap editFields

end ContentHash

namespace Source

mutual

/-- The content hash of a source. -/
def contentHash : Source → ContentHash
  | plain t => .ofFields (ContentHash.plainFields t)
  | file t name => .ofFields (ContentHash.fileFields t name)
  | generated _ node inputs =>
    .ofFields (ContentHash.generatedFields node (inputHashesOf node inputs))
  | joined _ children => .ofFields (ContentHash.joinedFields (contentHashAll children))
  | edited _ base edits => .ofFields (ContentHash.editedFields (contentHash base) edits)
  | kept _ child => contentHash child

/-- The content hashes of some sources. -/
def contentHashAll : List Source → List ContentHash
  | [] => []
  | s :: rest => contentHash s :: contentHashAll rest

/-- The content hashes of the further sources that are listed, with their keys. -/
def inputHashesOf (node : GeneratedText) : List (Text × Source) → List (Text × ContentHash)
  | [] => []
  | (key, s) :: rest =>
    if node.lists key then (key, contentHash s) :: inputHashesOf node rest
    else inputHashesOf node rest

end

/-- Remembering changes no content hash. -/
theorem contentHash_kept (id : NodeId) (child : Source) :
    contentHash (kept id child) = contentHash child := by
  rw [contentHash]

end Source

end Provenance
