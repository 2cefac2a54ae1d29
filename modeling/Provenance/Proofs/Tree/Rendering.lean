/-
# Reference rendering

What a source reads as, said without pieces, offsets that move or anything remembered: the texts of
the parts one after the other, and the text of a base in which every replaced range is exchanged for
its content, the last range first.

The main facts:

* `Edit.splice_eq_foldr` : splicing a text exchanges its ranges one by one;
* `text_eq_rendering` : the text of a source is its rendering.
-/
import Provenance.Proofs.Tree.Constructed

namespace Provenance

namespace Edit

/-- A text with the range of an edit exchanged for its content. -/
def exchange (e : Edit) (t : Text) : Text := t.take e.start ++ e.content ++ t.drop e.stop

/-- What is spliced from an offset on, behind what stands before. -/
theorem take_append_spliceFrom {t : Text} {start : Nat} {edits : List Edit}
    (h : InOrder t.length start edits) :
    t.take start ++ spliceFrom t start edits = edits.foldr exchange t := by
  induction edits generalizing start with
  | nil => exact List.take_append_drop start t
  | cons e rest ih =>
    obtain ⟨hlow, hrange, hrest⟩ := h
    have hstop := hrest.start_le_stop
    -- the ranges behind are exchanged first, and leave the text up to the end of this one
    have hbefore : (t.take e.stop).take e.start = t.take e.start := by
      rw [List.take_take, Nat.min_eq_left hrange]
    have hstart : t.take start ++ (t.take e.start).drop start = t.take e.start := by
      have hcut := List.take_append_drop start (t.take e.start)
      rwa [List.take_take, Nat.min_eq_left hlow] at hcut
    have hlength : (t.take e.stop).length = e.stop := by
      rw [List.length_take, Nat.min_eq_left hstop]
    rw [List.foldr_cons, ← ih hrest, exchange, spliceFrom,
      List.take_append_of_le_length (by rw [hlength]; exact hrange), hbefore,
      List.drop_left' hlength, ← List.append_assoc, ← List.append_assoc, hstart]

/-- **Splicing a text exchanges its ranges one by one.** -/
theorem splice_eq_foldr {t : Text} {edits : List Edit} (h : InOrder t.length 0 edits) :
    splice t edits = edits.foldr exchange t := by
  rw [splice_eq, ← take_append_spliceFrom h, List.take_zero, List.nil_append]

end Edit

namespace Source

mutual

/-- What a source reads as. -/
def rendering : Source → Text
  | plain t => t
  | file t _ => t
  | generated _ node _ => node.text
  | joined _ children => (renderings children).flatten
  | edited _ base edits => edits.foldr Edit.exchange (rendering base)
  | kept _ child => rendering child

/-- What some sources read as. -/
def renderings : List Source → List Text
  | [] => []
  | s :: rest => rendering s :: renderings rest

end

/-- **The text of a source is its rendering.** -/
theorem text_eq_rendering {s : Source} (hs : s.Constructed) : s.text = s.rendering := by
  induction hs with
  | plain t => rw [text, rendering]
  | file t name => rw [text, rendering]
  | generated hdecode hcheck hinputs ih => rw [text, rendering]
  | @joined id children hchildren ih =>
    have hall : ∀ ss : List Source, (∀ s ∈ ss, s.text = s.rendering) →
        textAll ss = (renderings ss).flatten := by
      intro ss hss
      induction ss with
      | nil => rfl
      | cons s rest ihrest =>
        obtain ⟨hs, hrest⟩ := List.forall_mem_cons.mp hss
        rw [textAll, renderings, List.flatten_cons, hs, ihrest hrest]
    rw [text, rendering, hall children ih]
  | edited hbase hcheck ih =>
    rw [text, rendering, Edit.splice_eq_foldr (inOrder_of_checkReplacements hcheck), ih]
  | kept hchild ih => rw [text, rendering, ih]

end Source

end Provenance
