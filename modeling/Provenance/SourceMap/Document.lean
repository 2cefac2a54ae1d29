/-
# Source map documents

A source map is stored as a JSON object of version 3.  Reading checks the members in a fixed order
and reports the first that is missing or of the wrong kind; writing gives a document that reads back
as the same map.

The main facts:

* `mapM_str`, `mapM_contentJson` : lists of texts and contents read back as they were written.
-/
import Provenance.Json.Parser
import Provenance.Json.Printer
import Provenance.SourceMap.Basic
import Provenance.Text.Base64
import Provenance.Text.Utf8

namespace Provenance

/-! ## Faults of a document -/

/-- What is wrong with a document. -/
inductive FormatError where
  | notJson
  | notAnObject
  /-- The version is not 3; it is shown in words. -/
  | unsupportedVersion (shown : Text)
  | sources
  | names
  | mappings
  | contents
  | file
  | sourceRoot
  deriving DecidableEq, Repr

/-- The words for a fault of a document. -/
def FormatError.message : FormatError → Text
  | notJson => "source map is not valid json"
  | notAnObject => "source map is not an object"
  | unsupportedVersion shown => ("unsupported source map version: " : Text) ++ shown
  | sources => "'sources' must be an array of strings"
  | names => "'names' must be an array of strings"
  | mappings => "'mappings' must be a string"
  | contents => "'sourcesContent' must be an array of strings or nulls"
  | file => "'file' must be a string"
  | sourceRoot => "'sourceRoot' must be a string"

/-- Why a document gives no source map. -/
inductive LoadError where
  | format (e : FormatError)
  /-- The version is not 3 and has no words to show it with. -/
  | unprintableVersion
  deriving DecidableEq, Repr

/-- The words for a document that gives no source map, if it has words of its own. -/
def LoadError.message : LoadError → Option Text
  | format e => some e.message
  | unprintableVersion => none

namespace SourceMap

/-! ## Reading -/

/-- A list of texts. -/
def texts? (v : Json) : Option (List Text) := do
  let items ← v.items?
  items.mapM Json.text?

/-- A content: a text, or null where none is known. -/
def content? : Json → Option (Option Text)
  | .null => some none
  | .str t => some (some t)
  | _ => none

/-- A list of contents. -/
def contents? (v : Json) : Option (List (Option Text)) := do
  let items ← v.items?
  items.mapM content?

/-- The version has to be 3. -/
def checkVersion : Option Json → Except LoadError Unit
  | none => .error (.format (.unsupportedVersion "undefined"))
  | some v =>
    match v with
    | .num x => if x = 3 then .ok () else .error (.format (.unsupportedVersion (Text.ofNumber x)))
    | v =>
      match v.display with
      | some shown => .error (.format (.unsupportedVersion shown))
      | none => .error .unprintableVersion

/-- A member read as `read` tells, or the fault of a member that is not what it should be. -/
def required {α : Type} (read : Json → Option α) (fault : FormatError) :
    Option Json → Except LoadError α
  | none => .error (.format fault)
  | some v =>
    match read v with
    | some x => .ok x
    | none => .error (.format fault)

/-- A text that may be missing or null. -/
def optionalText (fault : FormatError) : Option Json → Except LoadError (Option Text)
  | none | some .null => .ok none
  | some (.str t) => .ok (some t)
  | some _ => .error (.format fault)

/-- The fields of a document object. -/
def ofMembers (members : List (Text × Json)) : Except LoadError SourceMap := do
  checkVersion (members.lookup ("version" : Text))
  let sources ← required texts? .sources (members.lookup ("sources" : Text))
  let names ←
    match members.lookup ("names" : Text) with
    | none => .ok []
    | some v => required texts? .names (some v)
  let mappings ← required Json.text? .mappings (members.lookup ("mappings" : Text))
  let contents ←
    match members.lookup ("sourcesContent" : Text) with
    | none => .ok none
    | some v => (required contents? .contents (some v)).map some
  let file ← optionalText .file (members.lookup ("file" : Text))
  let sourceRoot ← optionalText .sourceRoot (members.lookup ("sourceRoot" : Text))
  .ok { sources, contents, names, mappings, file, sourceRoot }

/-- The value that a document stands for: a text is parsed first. -/
def documentValue : Json → Except LoadError Json
  | .str t =>
    match Json.parse t with
    | some v => .ok v
    | none => .error (.format .notJson)
  | v => .ok v

/-- The source map of a document, with what there is to tell about it. -/
def ofJson (document : Json) : Except LoadError (SourceMap × List Notice) := do
  match ← documentValue document with
  | .obj members => do
    let m ← ofMembers members
    .ok m.fit
  | _ => .error (.format .notAnObject)

/-! ## Writing -/

/-- A content as it stands in a document. -/
def contentJson : Option Text → Json
  | some t => .str t
  | none => .null

/-- The members of a document that may be missing. -/
def optionalMember (key : Text) (value : Option Json) : List (Text × Json) :=
  match value with
  | some v => [(key, v)]
  | none => []

/-- The document of a source map. -/
def toJson (m : SourceMap) : Json :=
  .obj
    ([(("version" : Text), .num 3), (("sources" : Text), .arr (m.sources.map .str)),
        (("names" : Text), .arr (m.names.map .str)), (("mappings" : Text), .str m.mappings)] ++
      optionalMember "sourcesContent" (m.contents.map fun cs => .arr (cs.map contentJson)) ++
      optionalMember "file" (m.file.map .str) ++
      optionalMember "sourceRoot" (m.sourceRoot.map .str))

/-- The text of the document. -/
def toText (m : SourceMap) : Text := m.toJson.render

/-- The document as a URL that holds all of it. -/
def dataUrl (m : SourceMap) : Text :=
  ("data:application/json;charset=utf-8;base64," : Text) ++ Base64.encode m.toText.utf8

/-! ## Round trip -/

theorem mapM_str (ts : List Text) : (ts.map Json.str).mapM Json.text? = some ts := by
  induction ts with
  | nil => rfl
  | cons t rest ih => simp [Json.text?, ih]

theorem mapM_contentJson (cs : List (Option Text)) :
    (cs.map contentJson).mapM content? = some cs := by
  induction cs with
  | nil => rfl
  | cons c rest ih => cases c <;> simp [contentJson, content?, ih]

end SourceMap

end Provenance
