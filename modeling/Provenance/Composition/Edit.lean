/-
# Editing composed results

Edits move the entries of a result along with the text around them.  Entries inside replaced ranges
are dropped; new content has an entry of its own, which carries the edit's name; what follows it
goes on with the mapping at the end of the replaced range.

The main facts:

* `text_edit` : the text of an edited result is the spliced text.
-/
import Provenance.Composition.Basic
import Provenance.Mapping.Trace
import Provenance.Text.Position
import Provenance.Tree.Replacement

namespace Provenance.Composition

/-! ## Offsets under edits -/

/-- The number of units that a text gains before an offset of it. -/
def gainBefore (offset : Nat) : List Edit → Int
  | [] => 0
  | e :: rest => (if e.stop ≤ offset then e.gain else 0) + gainBefore offset rest

/-- Whether an offset lies inside a replaced range. -/
def isReplaced (edits : List Edit) (offset : Nat) : Bool :=
  edits.any fun e => e.start < offset && offset < e.stop

/-- The entry at an offset of a text. -/
def entryAt (t : Text) (offset : Nat) (origin : Option Location) : Mapping :=
  let p := t.positionOf offset
  ⟨(p.line : Number), (p.column : Number), origin⟩

/-- The offset of an entry in a text, if its line is one of the text's. -/
def entryOffset? (t : Text) (m : Mapping) : Option Nat := do
  let line ← m.line.toNat?
  let column ← m.column.toNat?
  t.offsetOf? ⟨line, column⟩

/-- What an offset of a result's text is mapped to. -/
def traceOffset? (c : Composition) (offset : Nat) : Option Location :=
  let p := c.text.positionOf offset
  c.mappings.trace? (p.line : Number) (p.column : Number)

/-! ## Entries after edits -/

/-- The entries of a result outside of replaced ranges, at their places in the edited text. -/
def movedEntries (base : Composition) (edits : List Edit) (edited : Text) : MappingTable :=
  base.mappings.filterMap fun m =>
    match entryOffset? base.text m with
    | none => none
    | some offset =>
      if isReplaced edits offset then none
      else some (entryAt edited ((offset : Int) + gainBefore offset edits).toNat m.origin)

/-- The origin of named content, and the names with its name. -/
def nameContent (base : Composition) (e : Edit) (names : TextTable) :
    Option Location × TextTable :=
  match e.name with
  | none => (none, names)
  | some name =>
    match base.traceOffset? e.start with
    | none => (none, names)
    | some o =>
      let (i, names) := names.intern name
      (some { o with name := some (i : Number) }, names)

/-- The entries at the start of each edit's content and at its end, where the text has gained `gain`
units before, and the names with those of the edits. -/
def editEntries (base : Composition) (edited : Text) (gain : Int) (names : TextTable) :
    List Edit → MappingTable × TextTable
  | [] => ([], names)
  | e :: rest =>
    let (content, names) :=
      if e.content = [] then ([], names)
      else
        let (origin, names) := base.nameContent e names
        ([entryAt edited ((e.start : Int) + gain).toNat origin], names)
    let gain := gain + e.gain
    let continued :=
      if e.stop < base.text.length then
        [entryAt edited ((e.stop : Int) + gain).toNat (base.traceOffset? e.stop)]
      else []
    let (others, names) := editEntries base edited gain names rest
    (content ++ continued ++ others, names)

/-- A result with edits made. -/
def edit (base : Composition) (edits : List Edit) : Composition :=
  let edited := Edit.splice base.text edits
  let (added, names) := editEntries base edited 0 base.names edits
  { text := edited
    mappings := (movedEntries base edits edited ++ added).normalForm
    sources := base.sources
    names := names
    chainLength := base.chainLength }

/-- The text of an edited result is the spliced text. -/
theorem text_edit (base : Composition) (edits : List Edit) :
    (edit base edits).text = Edit.splice base.text edits := rfl

end Provenance.Composition
