/-
# Mappings text

A table is written line by line, lines ended by semicolons and the segments of a line separated by
commas.  Every field is the difference from its last value: the generated column from its value on
the same line, the others from their value anywhere before.

The main facts:

* `delta_natCast` : differences of moderate integers are exact.
-/
import Provenance.Mapping.Basic
import Provenance.Vlq.Encode

namespace Provenance

/-- Why a table has no mappings text. -/
inductive EncodeError where
  /-- An entry's line is before the line reached by the entries before it. -/
  | outOfOrder (line column : Number)
  /-- Infinitely many lines would have to be ended. -/
  | endlessGap
  /-- The text would be longer than a text can be. -/
  | textTooLong
  deriving DecidableEq, Repr

/-- The words for a table that has no mappings text. -/
def EncodeError.message : EncodeError → Text
  | outOfOrder line column =>
    ("mappings out of order at line " : Text) ++ Text.ofNumber line ++ " column " ++
      Text.ofNumber column
  | endlessGap => "Invalid count value: Infinity"
  | textTooLong => "Invalid string length"

namespace MappingTable

/-- The values that the next entry is written against. -/
structure Cursor where
  line : Number := 0
  /-- Whether the line has a segment already. -/
  begun : Bool := false
  column : Number := 0
  source : Number := 0
  originLine : Number := 0
  originColumn : Number := 0
  name : Number := 0

/-- The difference written for a value. -/
def delta (now before : Number) : Number := now - before

/-- The number of line ends between two lines, if there is room for them. -/
def lineGap (room : Nat) (now before : Number) : Except EncodeError Nat :=
  let gap := now - before
  if now = .posInf then .error .endlessGap
  else if gap.toCount ≤ room then .ok gap.toCount
  else .error .textTooLong

/-- The cursor on the line of an entry, and the number of line ends that lead there. -/
def Cursor.toLine (room : Nat) (c : Cursor) (m : Mapping) : Except EncodeError (Nat × Cursor) :=
  if m.line < c.line then .error (.outOfOrder m.line m.column)
  else if c.line < m.line then do
    let gap ← lineGap room m.line c.line
    .ok (gap, { c with line := m.line, begun := false, column := 0 })
  else .ok (0, c)

/-- The fields of an entry's origin, and the cursor after them. -/
def Cursor.writeLocation (c : Cursor) (o : Location) : Text × Cursor :=
  let fields :=
    Vlq.encode (delta o.source c.source) ++ Vlq.encode (delta o.line c.originLine) ++
      Vlq.encode (delta o.column c.originColumn)
  let c := { c with source := o.source, originLine := o.line, originColumn := o.column }
  match o.name with
  | none => (fields, c)
  | some name => (fields ++ Vlq.encode (delta name c.name), { c with name := name })

/-- The segment of an entry on the cursor's line, and the cursor after it. -/
def Cursor.writeSegment (c : Cursor) (m : Mapping) : Text × Cursor :=
  let separator : Text := if c.begun then [44] else []
  let column := Vlq.encode (delta m.column c.column)
  let c := { c with begun := true, column := m.column }
  match m.origin with
  | none => (separator ++ column, c)
  | some o =>
    let (fields, c) := c.writeLocation o
    (separator ++ column ++ fields, c)

/-- The text of the entries that follow a cursor, if there is room for it.  Nothing is put together
before it is known that all of it has room. -/
def encodeFrom (room : Nat) (c : Cursor) : MappingTable → Except EncodeError Text
  | [] => .ok []
  | m :: rest => do
    let (gap, c) ← c.toLine room m
    let (segment, c) := c.writeSegment m
    if room < gap + segment.length then .error .textTooLong
    else
      let others ← encodeFrom (room - (gap + segment.length)) c rest
      .ok (List.replicate gap 59 ++ segment ++ others)

/-- The mappings text of a table, if it is not longer than `room`. -/
def encodeWithin (room : Nat) (table : MappingTable) : Except EncodeError Text :=
  encodeFrom room {} table

/-- The mappings text of a table. -/
def encode (table : MappingTable) : Except EncodeError Text := encodeWithin Text.maxLength table

/-- Differences of moderate integers are exact. -/
theorem delta_natCast (a b : Nat) (ha : a ≤ Number.exactLimit) (hb : b ≤ Number.exactLimit) :
    delta (a : Number) (b : Number) = (((a : Int) - (b : Int) : Int) : Number) := by
  rw [delta, ← Number.intCast_natCast, ← Number.intCast_natCast, Number.intCast_sub]
  exact Number.rounded_intCast _ (by omega)

end MappingTable

end Provenance
