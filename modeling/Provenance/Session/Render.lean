/-
# Rendering with memory

The text of a source, its bytes, their number and its content hash, where nodes that remember
answer from their cells, and the text written out piece by piece to a sink that may fail.
-/
import Provenance.Session.Store

namespace Provenance.Session

/-! ## Text -/

mutual

/-- The text of a source. -/
def textOf : Source → Reader Text
  | .plain t => pure t
  | .file t _ => pure t
  | .generated _ node _ => pure node.text
  | .joined _ children => do
    let texts ← textsOf children
    pure texts.flatten
  | .edited _ base edits => do
    let t ← textOf base
    pure (Edit.splice t edits)
  | .kept id child => remember .text id (textOf child)

/-- The texts of some sources. -/
def textsOf : List Source → Reader (List Text)
  | [] => pure []
  | s :: rest => do
    let first ← textOf s
    let others ← textsOf rest
    pure (first :: others)

end

/-- The number of bytes of the text of a source. -/
def sizeOf : Source → Reader Nat
  | .kept id child => remember .size id (sizeOf child)
  | s => do
    let t ← textOf s
    pure t.utf8.length

/-- The bytes of the text of a source. -/
def bufferOf : Source → Reader (List UInt8)
  | .kept id child => remember .buffer id do
    let t ← textOf (.kept id child)
    pure t.utf8
  | s => do
    let t ← textOf s
    pure t.utf8

/-! ## Content hashes -/

mutual

/-- The content hash of a source. -/
def contentHashOf : Source → Reader ContentHash
  | .plain t => hashFields (ContentHash.plainFields t)
  | .file t name => hashFields (ContentHash.fileFields t name)
  | .generated _ node inputs => do
    let hashes ← inputHashes node inputs
    hashFields (ContentHash.generatedFields node hashes)
  | .joined _ children => do
    let hashes ← contentHashesOf children
    hashFields (ContentHash.joinedFields hashes)
  | .edited _ base edits => do
    let hash ← contentHashOf base
    hashFields (ContentHash.editedFields hash edits)
  | .kept id child => remember .contentHash id (contentHashOf child)

/-- The content hashes of some sources. -/
def contentHashesOf : List Source → Reader (List ContentHash)
  | [] => pure []
  | s :: rest => do
    let first ← contentHashOf s
    let others ← contentHashesOf rest
    pure (first :: others)

/-- The content hashes of the further sources that are listed, with their keys. -/
def inputHashes (node : GeneratedText) : List (Text × Source) → Reader (List (Text × ContentHash))
  | [] => pure []
  | (key, s) :: rest =>
    if node.lists key then do
      let first ← contentHashOf s
      let others ← inputHashes node rest
      pure ((key, first) :: others)
    else inputHashes node rest

end

/-! ## Writing out -/

/-- A store, and a sink that takes pieces of text. -/
structure Writing (κ : Type) where
  store : Store
  sink : κ

namespace Writing

variable {κ : Type}

/-- The store of a writing. -/
def storePart : Part (Writing κ) Store := ⟨store, fun s w => { w with store := s }⟩

/-- The sink of a writing. -/
def sinkPart : Part (Writing κ) κ := ⟨sink, fun k w => { w with sink := k }⟩

end Writing

section

variable {ε κ : Type} (put : Text → EStateM ε κ Unit)

/-- Writes a text, if there is anything to write. -/
def writePiece (t : Text) : EStateM ε (Writing κ) Unit :=
  if t = [] then pure () else Writing.sinkPart.run (put t)

/-- Writes some texts one after the other. -/
def writePieces : List Text → EStateM ε (Writing κ) Unit
  | [] => pure ()
  | t :: rest => do
    writePiece put t
    writePieces rest

mutual

/-- Writes the text of a source in pieces.  Nothing is looked at after the sink has failed. -/
def writeSource : Source → EStateM ε (Writing κ) Unit
  | .plain t => writePiece put t
  | .file t _ => writePiece put t
  | .generated _ node _ => writePiece put node.text
  | .joined _ children => writeAll children
  | .edited _ base edits => do
    let t ← Writing.storePart.run (textOf base).act
    writePieces put (Edit.pieces t edits)
  | .kept id child => do
    let t ← Writing.storePart.run (textOf (.kept id child)).act
    writePiece put t

/-- Writes some sources one after the other. -/
def writeAll : List Source → EStateM ε (Writing κ) Unit
  | [] => pure ()
  | s :: rest => do
    writeSource s
    writeAll rest

end

end

/-- A sink that takes pieces of text, as many as it has room for. -/
structure Sink (ε : Type) where
  written : List Text := []
  /-- How often a piece has been offered. -/
  calls : Nat := 0
  /-- The number of pieces after which the sink refuses all others, and the error it refuses them with;
  none if it takes all. -/
  closing : Option (Nat × ε) := none
  deriving DecidableEq, Repr

/-- Offers a piece to the sink. -/
def Sink.put {ε : Type} (t : Text) : EStateM ε (Sink ε) Unit := fun k =>
  let taken := { k with written := k.written ++ [t], calls := k.calls + 1 }
  match k.closing with
  | some (n, e) => if n ≤ k.written.length then .error e { k with calls := k.calls + 1 } else .ok () taken
  | none => .ok () taken

/-- The sink is closed. -/
inductive SinkError where
  | closed
  deriving DecidableEq, Repr

/-- The words for a closed sink. -/
def SinkError.message : SinkError → Text
  | closed => "sink closed"

end Provenance.Session
