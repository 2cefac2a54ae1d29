/-
# Tables in normal form

A table in normal form is in order, has one entry at a position at most, and has an entry without an
origin only where it ends the range of the entry before it on its line.

The main facts:

* `normalForm_subset` : nothing is in the normal form that was not in the table;
* `firstOfLines_column` : the table of lines has entries at the starts of lines only.
-/
import Provenance.Mapping.Basic

namespace Provenance.MappingTable

/-! ## The normal form -/

/-- Of entries at one position that follow each other, only the last. -/
def keepLast : MappingTable → MappingTable
  | a :: b :: rest => if a.sharesPosition b then keepLast (b :: rest) else a :: keepLast (b :: rest)
  | table => table

/-- Whether an entry has an effect after the entry before it: it has an origin, or it ends the range
of an entry that has one. -/
def isEffective (before : Option Mapping) (m : Mapping) : Bool :=
  if m.origin.isSome then true
  else if m.column = 0 then false
  else
    match before with
    | some b => b.line = m.line && b.origin.isSome
    | none => false

/-- The entries that have an effect after the entries before them. -/
def dropIdle (before : Option Mapping) : MappingTable → MappingTable
  | [] => []
  | m :: rest =>
    if isEffective before m then m :: dropIdle (some m) rest else dropIdle (some m) rest

/-- The normal form of entries in the order of their insertion: of entries at one position the last
inserted counts. -/
def normalForm (entries : MappingTable) : MappingTable := dropIdle none (keepLast (sort entries))

/-! ## The table of lines -/

/-- One entry for each line other than `line`, for the first of its entries that has an origin, from
the start of the line to the start of the line it comes from. -/
def linesAfter (line : Number) : MappingTable → MappingTable
  | [] => []
  | m :: rest =>
    match m.origin with
    | none => linesAfter line rest
    | some o =>
      if m.line = line then linesAfter line rest
      else ⟨m.line, 0, some ⟨o.source, o.line, 0, none⟩⟩ :: linesAfter m.line rest

/-- The table reduced to the starts of its lines.  Lines are counted from 0; no line is -1. -/
def firstOfLines (table : MappingTable) : MappingTable := linesAfter ((-1 : Int) : Number) table

/-! ## Laws -/

theorem keepLast_sublist (table : MappingTable) : (keepLast table).Sublist table := by
  induction table with
  | nil => exact List.Sublist.refl _
  | cons a rest ih =>
    cases rest with
    | nil => exact List.Sublist.refl _
    | cons b rest =>
      unfold keepLast
      split
      · exact ih.cons a
      · exact ih.cons_cons a

theorem dropIdle_sublist (before : Option Mapping) (table : MappingTable) :
    (dropIdle before table).Sublist table := by
  induction table generalizing before with
  | nil => exact List.Sublist.refl _
  | cons m rest ih =>
    unfold dropIdle
    split
    · exact (ih _).cons_cons m
    · exact (ih _).cons m

/-- Nothing is in the normal form that was not in the table. -/
theorem normalForm_subset {entries : MappingTable} {m : Mapping} (h : m ∈ normalForm entries) :
    m ∈ entries := by
  unfold normalForm at h
  have h := (keepLast_sublist _).subset ((dropIdle_sublist _ _).subset h)
  exact (sort_perm entries).mem_iff.mp h

theorem linesAfter_column (line : Number) (table : MappingTable) :
    ∀ m ∈ linesAfter line table, m.column = 0 := by
  induction table generalizing line with
  | nil => simp [linesAfter]
  | cons first rest ih =>
    intro m hm
    unfold linesAfter at hm
    split at hm
    · exact ih line m hm
    · split at hm
      · exact ih line m hm
      · rcases List.mem_cons.mp hm with rfl | hm
        · rfl
        · exact ih _ m hm

/-- The table of lines has entries at the starts of lines only. -/
theorem firstOfLines_column {table : MappingTable} {m : Mapping} (h : m ∈ firstOfLines table) :
    m.column = 0 := linesAfter_column _ table m h

end Provenance.MappingTable
