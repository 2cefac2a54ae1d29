/-
# Line starts that are kept

Many excerpts may be taken from one text.  Where its lines start is found once, and kept under the text
for the excerpts that follow.

The main facts:

* `within_lineOffsets` : an excerpt by the line starts of its text is the excerpt of the text.
-/
import Provenance.Text.Excerpt

namespace Provenance

/-- The excerpt of a text around an offset, by the offsets at which its lines are said to start. -/
def Excerpt.within (starts : List Nat) (t : Text) (pos : Number) (second : Option Number) : Excerpt :=
  let index := Text.lineOf (starts.map fun s : Nat => (s : Number)) pos
  let start := starts.getD index 0
  let stop :=
    match starts[index + 1]? with
    | some next => next - 1
    | none => t.length
  { line := (t.take stop).drop start
    number := index + 1
    mark := pos.moved (-start)
    secondMark := second.bind fun p =>
      if (start : Number) ≤ p ∧ p ≤ (stop : Number) then some (p.moved (-start)) else none }

/-- An excerpt by the line starts of its text is the excerpt of the text. -/
theorem Excerpt.within_lineOffsets (t : Text) (pos : Number) (second : Option Number) :
    Excerpt.within t.lineOffsets t pos second = Excerpt.of t pos second := rfl

/-- Line starts, kept under the texts that they belong to. -/
abbrev LineMemory := List (Text × List Nat)

/-- The line starts kept under a text, found and kept first if there are none. -/
def LineMemory.startsOf (memory : LineMemory) (t : Text) : List Nat × LineMemory :=
  match memory.lookup t with
  | some starts => (starts, memory)
  | none => (t.lineOffsets, memory ++ [(t, t.lineOffsets)])

/-- A request for the excerpt of a text around an offset. -/
structure ExcerptRequest where
  text : Text
  pos : Number
  second : Option Number := none
  deriving DecidableEq, Repr

namespace ExcerptRequest

/-- The excerpt that is asked for, and the line starts kept after it. -/
def run (memory : LineMemory) (r : ExcerptRequest) : Excerpt × LineMemory :=
  let (starts, memory) := memory.startsOf r.text
  (Excerpt.within starts r.text r.pos r.second, memory)

/-- The excerpts of some requests, and the line starts kept after all of them. -/
def runAll (memory : LineMemory) : List ExcerptRequest → List Excerpt × LineMemory
  | [] => ([], memory)
  | r :: rest =>
    let (e, memory) := r.run memory
    let (es, memory) := runAll memory rest
    (e :: es, memory)

end ExcerptRequest

end Provenance
