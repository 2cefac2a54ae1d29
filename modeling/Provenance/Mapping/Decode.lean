/-
# Reading mappings text

A mappings text is split at semicolons into lines and at commas into segments; a line may be empty,
a segment may not.  The segments are read from left to right, each adding its fields to the running
values, and the first fault ends the reading.  The entries are then put in order.

The main facts:

* `decodeFrom_append` : a list of segments is read by reading one part after the other;
* `length_of_decodeFrom` : there is one entry for each segment.
-/
import Provenance.Mapping.Basic
import Provenance.Vlq.Read

namespace Provenance

/-! ## Segments -/

/-- A segment: the line it is on, the offset it starts at, and its units. -/
structure Segment where
  line : Nat
  offset : Nat
  units : Text
  deriving DecidableEq, Repr

namespace Segment

/-- The parts of a text between separators, each with the offset of its start. -/
def parts (separator : CodeUnit) (offset : Nat) : Text → List (Nat × Text)
  | [] => [(offset, [])]
  | u :: rest =>
    if u = separator then (offset, []) :: parts separator (offset + 1) rest
    else
      match parts separator (offset + 1) rest with
      | [] => [(offset, [u])]
      | (_, part) :: others => (offset, u :: part) :: others

/-- The segments of a line that starts at an offset: none if it is empty. -/
def ofLine (line offset : Nat) (units : Text) : List Segment :=
  if units = [] then []
  else (parts Vlq.comma offset units).map fun (start, part) => ⟨line, start, part⟩

/-- The segments of a mappings text. -/
def all (t : Text) : List Segment :=
  (parts Vlq.semicolon 0 t).zipIdx.flatMap fun ((offset, units), line) => ofLine line offset units

end Segment

/-! ## Running values -/

namespace MappingTable

/-- The sums of the fields read so far. -/
structure Running where
  /-- The line that the generated column belongs to. -/
  line : Nat := 0
  column : Number := 0
  source : Number := 0
  originLine : Number := 0
  originColumn : Number := 0
  name : Number := 0

/-- The running values at a segment: on a new line the generated column starts over. -/
def Running.enter (r : Running) (line : Nat) : Running :=
  if line = r.line then r else { r with line := line, column := 0 }

/-- A running value may not be negative. -/
def check (field : MappingField) (value : Number) (offset : Nat) : Except DecodeError Unit :=
  if value < 0 then .error (.negative field value offset) else .ok ()

/-- The generated column moves on. -/
def Running.moveColumn (r : Running) (column : Number) (offset : Nat) :
    Except DecodeError Running := do
  let r := { r with column := r.column + column }
  check .generatedColumn r.column offset
  .ok r

/-- The origin moves on. -/
def Running.moveOrigin (r : Running) (source line column : Number) (offset : Nat) :
    Except DecodeError Running := do
  let r := { r with
    source := r.source + source
    originLine := r.originLine + line
    originColumn := r.originColumn + column }
  check .source r.source offset
  check .originLine r.originLine offset
  check .originColumn r.originColumn offset
  .ok r

/-- The name moves on. -/
def Running.moveName (r : Running) (name : Number) (offset : Nat) :
    Except DecodeError Running := do
  let r := { r with name := r.name + name }
  check .name r.name offset
  .ok r

/-- The running values after the fields of a segment, and the entry that they make. -/
def Running.step (r : Running) (offset : Nat) (fields : List Number) :
    Except DecodeError (Mapping × Running) :=
  match fields with
  | [column] => do
    let r ← r.moveColumn column offset
    .ok (⟨(r.line : Number), r.column, none⟩, r)
  | [column, source, line, originColumn] => do
    let r ← r.moveColumn column offset
    let r ← r.moveOrigin source line originColumn offset
    .ok (⟨(r.line : Number), r.column, some ⟨r.source, r.originLine, r.originColumn, none⟩⟩, r)
  | [column, source, line, originColumn, name] => do
    let r ← r.moveColumn column offset
    let r ← r.moveOrigin source line originColumn offset
    let r ← r.moveName name offset
    .ok (⟨(r.line : Number), r.column,
      some ⟨r.source, r.originLine, r.originColumn, some r.name⟩⟩, r)
  | _ => .error (.fieldCount fields.length offset)

/-! ## Decoding -/

/-- Reads one segment. -/
def Running.read (r : Running) (s : Segment) : Except DecodeError (Mapping × Running) :=
  if s.units = [] then .error (.emptySegment s.offset)
  else do
    let fields ← (Vlq.readAll s.offset s.units).values
    (r.enter s.line).step s.offset fields

/-- Reads segments from left to right; gives their entries and the values reached. -/
def decodeFrom (r : Running) : List Segment → Except DecodeError (MappingTable × Running)
  | [] => .ok ([], r)
  | s :: rest => do
    let (m, r) ← r.read s
    let (others, r) ← decodeFrom r rest
    .ok (m :: others, r)

/-- The table of a mappings text, in the order of generated positions. -/
def decode (t : Text) : Except DecodeError MappingTable := do
  let (entries, _) ← decodeFrom {} (Segment.all t)
  .ok (sort entries)

/-- A list of segments is read by reading one part after the other. -/
theorem decodeFrom_append (r : Running) (xs ys : List Segment) :
    decodeFrom r (xs ++ ys) = (do
      let (before, r) ← decodeFrom r xs
      let (after, r) ← decodeFrom r ys
      .ok (before ++ after, r)) := by
  induction xs generalizing r with
  | nil =>
    cases h : decodeFrom r ys <;> simp [decodeFrom, h, bind, Except.bind]
  | cons s rest ih =>
    simp only [List.cons_append, decodeFrom, bind, Except.bind] at ih ⊢
    cases r.read s with
    | error e => rfl
    | ok first =>
      simp only [ih]
      cases decodeFrom first.2 rest with
      | error e => rfl
      | ok middle =>
        simp only
        cases decodeFrom middle.2 ys <;> rfl

/-- There is one entry for each segment. -/
theorem length_of_decodeFrom {r s : Running} {xs : List Segment} {entries : MappingTable}
    (h : decodeFrom r xs = .ok (entries, s)) : entries.length = xs.length := by
  induction xs generalizing r entries with
  | nil =>
    simp only [decodeFrom, Except.ok.injEq, Prod.mk.injEq] at h
    simp [← h.1]
  | cons x rest ih =>
    simp only [decodeFrom, bind, Except.bind] at h
    cases hx : r.read x with
    | error e => simp [hx] at h
    | ok first =>
      rw [hx] at h
      cases hr : decodeFrom first.2 rest with
      | error e => simp [hr] at h
      | ok others =>
        obtain ⟨ms, last⟩ := others
        simp only [hr, Except.ok.injEq, Prod.mk.injEq] at h
        obtain ⟨rfl, rfl⟩ := h
        rw [List.length_cons, List.length_cons, ih hr]

end MappingTable

end Provenance
