/-
# Outlines

An outline shows a source tree with one line for each node, indented by its depth.
-/
import Provenance.Json.Printer
import Provenance.Session.Store

namespace Provenance.Session

/-- The longest text that is shown in full. -/
def showLimit : Nat := 20

/-- A text in quotes, cut if it is long. -/
def shown (t : Text) : Text :=
  Json.quote (if showLimit < t.length then t.take (showLimit - 3) ++ "..." else t)

/-- A list of texts as it is shown. -/
def listed (ts : List Text) : Text := Text.join ", " ts

/-- An edit as it is shown. -/
def editLine (e : Edit) : Text :=
  ("[" : Text) ++ Text.ofNat e.start ++ ", " ++ Text.ofNat e.stop ++ ") " ++ shown e.content

/-- The line of a node. -/
def nodeLine (store : Store) : Source → Text
  | .plain t => ("raw " : Text) ++ shown t
  | .file t name => ("original '" : Text) ++ name ++ "' " ++ shown t
  | .generated _ node inputs =>
    let keys := Assoc.keys (node.listed inputs)
    let further : Text :=
      if keys.isEmpty then [] else (" upstream: [" : Text) ++ listed keys ++ "]"
    ("mapped '" : Text) ++ node.name ++ "' sources: [" ++ listed node.map.sources ++ "]" ++ further
  | .joined _ children => ("concat (" : Text) ++ Text.ofNat children.length ++ ")"
  | .edited _ _ edits => ("replace " : Text) ++ Text.join " " (edits.map editLine)
  | .kept id _ =>
    ("cached " : Text) ++ [CodeUnit.ofChar '\x7b'] ++ listed (store.cell id).held ++
      [CodeUnit.ofChar '\x7d']

mutual

/-- The lines of a source tree. -/
def outlineLines (store : Store) (indent : Text) : Source → List Text
  | .plain t => [indent ++ nodeLine store (.plain t)]
  | .file t name => [indent ++ nodeLine store (.file t name)]
  | .generated id node inputs =>
    (indent ++ nodeLine store (.generated id node inputs)) ::
      outlineInputs store (indent ++ "  ") node inputs
  | .joined id children =>
    (indent ++ nodeLine store (.joined id children)) :: outlineAll store (indent ++ "  ") children
  | .edited id base edits =>
    (indent ++ nodeLine store (.edited id base edits)) :: outlineLines store (indent ++ "  ") base
  | .kept id child =>
    (indent ++ nodeLine store (.kept id child)) :: outlineLines store (indent ++ "  ") child

/-- The lines of some source trees. -/
def outlineAll (store : Store) (indent : Text) : List Source → List Text
  | [] => []
  | s :: rest => outlineLines store indent s ++ outlineAll store indent rest

/-- The lines of the further sources that are listed. -/
def outlineInputs (store : Store) (indent : Text) (node : GeneratedText) :
    List (Text × Source) → List Text
  | [] => []
  | (key, s) :: rest =>
    if node.lists key then outlineLines store indent s ++ outlineInputs store indent node rest
    else outlineInputs store indent node rest

end

/-- The outline of a source tree. -/
def outline (store : Store) (indent : Text) (s : Source) : Text :=
  Text.join "\n" (outlineLines store indent s)

end Provenance.Session
