/-
# Looking up positions

An entry covers the positions from its own up to the next entry on its line.  The covering entry is
found by binary search, and a covered position is as far from the entry's origin as it is from the
entry.

The main facts:

* `find?_line` : the entry found is on the line asked for;
* `trace?_eq_none_of_find?` : a position that no entry covers comes from nowhere.
-/
import Provenance.Mapping.Basic
import Provenance.Search

namespace Provenance

/-- The origin, moved along its line by a distance.  A name stands only at its start. -/
def Location.advance (o : Location) (distance : Number) : Location :=
  { o with
    column := o.column + distance
    name := if distance = 0 then o.name else none }

namespace MappingTable

/-- An entry starts at or before a position. -/
def reaches (line column : Number) (m : Mapping) : Bool :=
  m.line < line || (m.line = line && m.column ≤ column)

/-- The entry that covers a position: the last one that starts at or before it, if that is on the
same line. -/
def find? (table : MappingTable) (line column : Number) : Option (Nat × Mapping) :=
  match partitionPoint (reaches line column) table with
  | 0 => none
  | i + 1 =>
    match table[i]? with
    | some m => if m.line = line then some (i, m) else none
    | none => none

/-- The origin of a generated position, if it comes from one. -/
def trace? (table : MappingTable) (line column : Number) : Option Location := do
  let (_, m) ← table.find? line column
  let o ← m.origin
  some (o.advance (column - m.column))

/-- The entry found is on the line asked for. -/
theorem find?_line {table : MappingTable} {line column : Number} {i : Nat} {m : Mapping}
    (h : table.find? line column = some (i, m)) : m.line = line ∧ table[i]? = some m := by
  unfold find? at h
  split at h
  · simp at h
  · split at h
    · split at h
      · simp only [Option.some.injEq, Prod.mk.injEq] at h
        obtain ⟨rfl, rfl⟩ := h
        exact ⟨by assumption, by assumption⟩
      · simp at h
    · simp at h

/-- A position that no entry covers comes from nowhere. -/
theorem trace?_eq_none_of_find? {table : MappingTable} {line column : Number}
    (h : table.find? line column = none) : table.trace? line column = none := by
  simp [trace?, h]

end MappingTable

end Provenance
