/-
# Mapping tables

An entry of a mapping table says that from a generated position on, up to the next entry, a text
comes from an origin, or from nowhere.  Lines and columns are counted from zero, columns in code
units.

The main facts:

* `not_precedes_self` : no entry stands before itself;
* `sort_of_inOrder` : a table in order is left alone;
* `sort_perm` : sorting moves entries and keeps all of them.
-/
import Provenance.Number.Arithmetic

namespace Provenance

/-- A position in one of the sources of a table. -/
structure Location where
  /-- The index of the source. -/
  source : Number
  line : Number
  column : Number
  /-- The index of the name written at the position. -/
  name : Option Number := none
  deriving DecidableEq, Repr

/-- A generated position, with the origin it maps to.  An entry without one ends the range of the
entry before it. -/
structure Mapping where
  line : Number
  column : Number
  origin : Option Location := none
  deriving DecidableEq, Repr

/-- Entries, in the order of their generated positions where nothing else is said. -/
abbrev MappingTable := List Mapping

namespace Mapping

/-! ## The order of generated positions -/

/-- The generated position of an entry stands before that of another: on an earlier line, or not on
a later line and at a smaller column. -/
def precedes (a b : Mapping) : Bool :=
  a.line < b.line || (¬ b.line < a.line && a.column < b.column)

/-- Two entries stand at one generated position. -/
def sharesPosition (a b : Mapping) : Bool :=
  ¬ a.line < b.line && ¬ b.line < a.line && a.column - b.column = 0

/-- No entry stands before itself. -/
theorem not_precedes_self (a : Mapping) : a.precedes a = false := by
  have h : ∀ x : Number, ¬ x < x := by
    intro x
    cases x with
    | finite q =>
      show ¬ decide (q < q) = true
      rw [decide_eq_true_eq]
      exact Rat.lt_irrefl
    | posInf => exact Bool.false_ne_true
    | negInf => exact Bool.false_ne_true
    | nan => exact Bool.false_ne_true
  simp [precedes, h]

end Mapping

namespace MappingTable

/-- No entry stands before the entry it follows. -/
def inOrder : MappingTable → Bool
  | a :: b :: rest => !b.precedes a && inOrder (b :: rest)
  | _ => true

/-- The entries in the order of their generated positions; entries at one position keep their
order.  A table in order is left alone, also where some of its positions have no value. -/
def sort (table : MappingTable) : MappingTable :=
  if table.inOrder then table else List.mergeSort table fun a b => !b.precedes a

/-- A table in order is left alone. -/
theorem sort_of_inOrder {table : MappingTable} (h : table.inOrder = true) :
    sort table = table := by
  unfold sort
  rw [if_pos h]

/-- Sorting moves entries and keeps all of them. -/
theorem sort_perm (table : MappingTable) : (sort table).Perm table := by
  unfold sort
  split
  · exact List.Perm.refl table
  · exact List.mergeSort_perm table _

end MappingTable

end Provenance
