/-
# Checks on construction

A source map is accepted for a text only if its entries refer to sources and names that it lists,
and replacements only if they are applicable to the text they are made in.
-/
import Provenance.Tree.Basic

namespace Provenance

/-- Why a source cannot be constructed. -/
inductive BuildError where
  /-- An entry of the map for `name` refers to a source that the map does not list. -/
  | missingSource (name : Text) (index : Number) (line column : Number) (count : Nat)
  /-- An entry of the map for `name` refers to a name that the map does not list. -/
  | missingName (name : Text) (index : Number) (line column : Number) (count : Nat)
  /-- A map for the text that was mapped is given, but not that text. -/
  | innerMapAlone (name : Text)
  /-- A replacement is not applicable; the excerpt shows its place, if it has one. -/
  | replacement (r : Replacement) (problem : ReplacementProblem) (place : Option Excerpt)
  deriving DecidableEq, Repr

namespace BuildError

/-- The words for a generated position. -/
def positionWords (line column : Number) : Text :=
  ("line " : Text) ++ Text.ofNumber line ++ " column " ++ Text.ofNumber column

/-- The words for a source that cannot be constructed. -/
def message : BuildError → Text
  | missingSource name index line column count =>
    ("map for '" : Text) ++ name ++ "' refers to source " ++ Text.ofNumber index ++ " at " ++
      positionWords line column ++ ", but has " ++ Text.ofNat count ++ " sources"
  | missingName name index line column count =>
    ("map for '" : Text) ++ name ++ "' refers to name " ++ Text.ofNumber index ++ " at " ++
      positionWords line column ++ ", but has " ++ Text.ofNat count ++ " names"
  | innerMapAlone name => ("innerMap for '" : Text) ++ name ++ "' requires originalSource"
  | replacement r problem place =>
    let first :=
      ("replacement [" : Text) ++ Text.ofNumber r.start ++ ", " ++ Text.ofNumber r.stop ++ ") " ++
        problem.words
    match place with
    | none => first
    | some e => Text.join "\n" [first, e.heading, e.caretLine]

end BuildError

/-- The first entry of a table that refers to a source or a name beyond those listed. -/
def checkEntries (name : Text) (sources names : Nat) :
    MappingTable → Except BuildError Unit
  | [] => .ok ()
  | m :: rest =>
    match m.origin with
    | none => checkEntries name sources names rest
    | some o =>
      if (sources : Number) ≤ o.source then
        .error (.missingSource name o.source m.line m.column sources)
      else
        match o.name with
        | none => checkEntries name sources names rest
        | some n =>
          if (names : Number) ≤ n then .error (.missingName name n m.line m.column names)
          else checkEntries name sources names rest

/-- The edits that some replacements of a text are. -/
def checkReplacements (t : Text) (rs : List Replacement) : Except BuildError (List Edit) :=
  match Replacement.check t rs with
  | .ok edits => .ok edits
  | .error (r, problem) => .error (.replacement r problem (r.place? t))

end Provenance
