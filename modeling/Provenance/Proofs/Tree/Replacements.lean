/-
# Applicable replacements

Replacements are applicable to a text if their ranges lie in it, one behind the other.  These lists are
accepted and no others are; of the others, the replacement that is reported is the first one with which
the list is not applicable any more, and what is reported of it is so.  The pieces of a text with
applicable replacements have something in them each, and make up the text in which the ranges have been
exchanged one by one, the last one first.

The main facts:

* `applicable_iff` : applicable replacements are what edits in order say;
* `checkReplacements_eq_error` : the replacement that is reported, and why;
* `splice_of_applicable` : what a text with applicable replacements is.
-/
import Mathlib.Data.List.Chain
import Provenance.Proofs.Tree.Rendering

namespace Provenance

namespace Replacement

variable {t : Text} {r : Replacement} {rs : List Replacement}

/-! ## Ranges in a text -/

/-- The range of a replacement lies in a text. -/
structure InText (t : Text) (r : Replacement) : Prop where
  start_isInteger : r.start.isInteger = true
  stop_isInteger : r.stop.isInteger = true
  nonneg : 0 ≤ r.start
  start_le_stop : r.start ≤ r.stop
  stop_le : r.stop ≤ (t.length : Number)

/-- A replacement has a range if its start and its stop are integers, and not negative. -/
theorem isSome_range?_iff :
    r.range?.isSome ↔ r.start.isInteger = true ∧ r.stop.isInteger = true ∧ 0 ≤ r.start := by
  constructor
  · intro h
    obtain ⟨⟨first, last⟩, hrange⟩ := Option.isSome_iff_exists.mp h
    obtain ⟨hstart, hstop, hnonneg⟩ := range?_eq_some_iff.mp hrange
    rw [hstart, hstop, Number.isInteger, Number.isInteger, Number.toInt?_intCast,
      Number.toInt?_intCast]
    exact ⟨rfl, rfl, Number.intCast_le.mpr hnonneg⟩
  · rintro ⟨hstart, hstop, hnonneg⟩
    obtain ⟨first, hfirst⟩ := Option.isSome_iff_exists.mp hstart
    obtain ⟨last, hlast⟩ := Option.isSome_iff_exists.mp hstop
    have hfirst := Number.eq_intCast_of_toInt? hfirst
    rw [hfirst] at hnonneg
    rw [range?_eq_some_iff.mpr ⟨hfirst, Number.eq_intCast_of_toInt? hlast,
      Number.intCast_le.mp hnonneg⟩]
    rfl

/-- A replacement lies in a text if it has a range that does. -/
theorem inText_iff_range? : r.InText t ↔
    ∃ first last : Int, r.range? = some (first, last) ∧ first ≤ last ∧ last ≤ t.length := by
  have hrange : ∀ {first last : Int}, r.range? = some (first, last) →
      (r.start ≤ r.stop ↔ first ≤ last) ∧ (r.stop ≤ (t.length : Number) ↔ last ≤ t.length) := by
    intro first last h
    obtain ⟨hstart, hstop, -⟩ := range?_eq_some_iff.mp h
    rw [hstart, hstop, ← Number.intCast_natCast]
    exact ⟨Number.intCast_le, Number.intCast_le⟩
  constructor
  · rintro ⟨hstart, hstop, hnonneg, horder, hle⟩
    obtain ⟨⟨first, last⟩, h⟩ :=
      Option.isSome_iff_exists.mp (isSome_range?_iff.mpr ⟨hstart, hstop, hnonneg⟩)
    exact ⟨first, last, h, (hrange h).1.mp horder, (hrange h).2.mp hle⟩
  · rintro ⟨first, last, h, horder, hle⟩
    obtain ⟨hstart, hstop, hnonneg⟩ := isSome_range?_iff.mp (Option.isSome_of_eq_some h)
    exact ⟨hstart, hstop, hnonneg, (hrange h).1.mpr horder, (hrange h).2.mpr hle⟩

/-- A replacement with a range in a text says what an edit of the text does. -/
theorem inText_iff : r.InText t ↔
    ∃ e : Edit, e.toReplacement = r ∧ e.start ≤ e.stop ∧ e.stop ≤ t.length := by
  rw [inText_iff_range?]
  constructor
  · rintro ⟨first, last, hrange, horder, hle⟩
    obtain ⟨-, -, hnonneg⟩ := range?_eq_some_iff.mp hrange
    exact ⟨⟨first.toNat, last.toNat, r.content, r.name⟩, toReplacement_of_range? hrange horder,
      by simp only; omega, by simp only; omega⟩
  · rintro ⟨e, rfl, horder, hle⟩
    exact ⟨e.start, e.stop, range?_toReplacement e, by omega, by omega⟩

instance (t : Text) (r : Replacement) : Decidable (r.InText t) :=
  decidable_of_iff (r.start.isInteger = true ∧ r.stop.isInteger = true ∧ 0 ≤ r.start ∧
      r.start ≤ r.stop ∧ r.stop ≤ (t.length : Number))
    ⟨fun ⟨h₁, h₂, h₃, h₄, h₅⟩ => ⟨h₁, h₂, h₃, h₄, h₅⟩,
      fun h => ⟨h.start_isInteger, h.stop_isInteger, h.nonneg, h.start_le_stop, h.stop_le⟩⟩

/-! ## Applicable lists -/

/-- The ranges of replacements lie in a text, and each starts at or behind the end of the one before. -/
def Applicable (t : Text) (rs : List Replacement) : Prop :=
  (∀ r ∈ rs, r.InText t) ∧ rs.IsChain fun a b => a.stop ≤ b.start

instance (t : Text) (rs : List Replacement) : Decidable (Applicable t rs) :=
  inferInstanceAs (Decidable (_ ∧ _))

/-- Applicable replacements from an offset on are what edits in order say. -/
theorem applicableFrom_iff {start : Nat} (hstart : start ≤ t.length) :
    (Applicable t rs ∧ ∀ r ∈ rs.head?, (start : Number) ≤ r.start) ↔
      ∃ edits, Edit.InOrder t.length start edits ∧ edits.map Edit.toReplacement = rs := by
  induction rs generalizing start with
  | nil => exact iff_of_true ⟨⟨by simp, .nil⟩, by simp⟩ ⟨[], hstart, rfl⟩
  | cons r rest ih =>
    constructor
    · rintro ⟨⟨hin, hchain⟩, hfirst⟩
      obtain ⟨hr, hrest⟩ := List.forall_mem_cons.mp hin
      obtain ⟨e, rfl, hrange, hle⟩ := inText_iff.mp hr
      obtain ⟨hnext, hchain⟩ := List.isChain_cons.mp hchain
      obtain ⟨edits, horder, rfl⟩ := (ih hle).mp ⟨⟨hrest, hchain⟩, hnext⟩
      have hlow : start ≤ e.start := Number.natCast_le.mp (hfirst e.toReplacement rfl)
      exact ⟨e :: edits, ⟨hlow, hrange, horder⟩, rfl⟩
    · rintro ⟨edits, horder, hedits⟩
      obtain ⟨e, others, rfl, rfl, hothers⟩ := List.map_eq_cons_iff.mp hedits
      obtain ⟨hlow, hrange, horder⟩ := horder
      have hle := horder.start_le_stop
      obtain ⟨⟨hin, hchain⟩, hnext⟩ := (ih hle).mpr ⟨others, horder, hothers⟩
      refine ⟨⟨List.forall_mem_cons.mpr ⟨inText_iff.mpr ⟨e, rfl, hrange, hle⟩, hin⟩,
        List.isChain_cons.mpr ⟨hnext, hchain⟩⟩, fun r hr => ?_⟩
      rw [← Option.some.inj hr]
      exact Number.natCast_le.mpr hlow

/-- **Applicable replacements are what edits in order say.** -/
theorem applicable_iff : Applicable t rs ↔
    ∃ edits, Edit.InOrder t.length 0 edits ∧ edits.map Edit.toReplacement = rs := by
  rw [← applicableFrom_iff (Nat.zero_le _)]
  refine ⟨fun h => ⟨h, fun r hr => ?_⟩, And.left⟩
  exact (h.1 r (List.mem_of_head? hr)).nonneg

/-! ## What is accepted, and what is reported -/

/-- **Applicable replacements are accepted**, and no others. -/
theorem exists_checkReplacements_eq_ok_iff :
    (∃ edits, checkReplacements t rs = .ok edits) ↔ Applicable t rs := by
  rw [applicable_iff]
  exact exists_congr fun edits =>
    checkReplacements_eq_ok_iff.trans (and_congr_right fun _ => eq_comm)

end Replacement

/-- What a problem says of a replacement behind another one, or behind none. -/
def ReplacementProblem.HoldsOf (length : Nat) (previous : Option Replacement) (r : Replacement) :
    ReplacementProblem → Prop
  | notARange => ¬ (r.start.isInteger = true ∧ r.stop.isInteger = true ∧ 0 ≤ r.start)
  | endsBeforeStart => r.stop < r.start
  | pastTheEnd n => n = length ∧ (length : Number) < r.stop
  | startsBeforePrevious n => r.start < (n : Number) ∧ ∃ p ∈ previous, p.start = (n : Number)
  | overlapsPrevious n => r.start < (n : Number) ∧ ∃ p ∈ previous, p.stop = (n : Number)

namespace Replacement

variable {t : Text} {r : Replacement} {rs : List Replacement}

/-- Two offsets are the start and the stop of a replacement, if there is one. -/
def EndsAt (start stop : Nat) : Option Replacement → Prop
  | none => start = 0 ∧ stop = 0
  | some p => p.start = (start : Number) ∧ p.stop = (stop : Number)

/-- How a replacement says no edit. -/
theorem toEdit_eq_error {length start stop : Nat} {problem : ReplacementProblem}
    (h : r.toEdit length start stop = .error problem) :
    (problem = .notARange ∧ r.range? = none) ∨
      ∃ first last : Int, r.range? = some (first, last) ∧
        ((problem = .endsBeforeStart ∧ last < first) ∨
          (problem = .pastTheEnd length ∧ (length : Int) < last) ∨
          (problem = .startsBeforePrevious start ∧ first < start) ∨
          (problem = .overlapsPrevious stop ∧ first < stop)) := by
  unfold toEdit at h
  cases hrange : r.range? with
  | none =>
    rw [hrange] at h
    exact Or.inl ⟨(Except.error.inj h).symm, rfl⟩
  | some range =>
    obtain ⟨first, last⟩ := range
    rw [hrange] at h
    refine Or.inr ⟨first, last, rfl, ?_⟩
    dsimp only at h
    split at h
    · exact Or.inl ⟨(Except.error.inj h).symm, ‹_›⟩
    split at h
    · exact Or.inr (Or.inl ⟨(Except.error.inj h).symm, ‹_›⟩)
    split at h
    · exact Or.inr (Or.inr (Or.inl ⟨(Except.error.inj h).symm, ‹_›⟩))
    split at h
    · exact Or.inr (Or.inr (Or.inr ⟨(Except.error.inj h).symm, ‹_›⟩))
    · cases h

/-- A start in front of an end of the replacement before needs a replacement before. -/
theorem EndsAt.exists_of_lt {start stop : Nat} {previous : Option Replacement} {first : Int}
    (h : EndsAt start stop previous) (hfirst : 0 ≤ first) (hlt : first < start ∨ first < stop) :
    ∃ p ∈ previous, p.start = (start : Number) ∧ p.stop = (stop : Number) := by
  cases previous with
  | none =>
    obtain ⟨rfl, rfl⟩ := h
    omega
  | some p => exact ⟨p, rfl, h⟩

/-- What is found to be wrong with a replacement is so. -/
theorem holdsOf_of_toEdit {length start stop : Nat} {previous : Option Replacement}
    {problem : ReplacementProblem} (hprevious : EndsAt start stop previous)
    (h : r.toEdit length start stop = .error problem) : problem.HoldsOf length previous r := by
  rcases toEdit_eq_error h with ⟨rfl, hnone⟩ | ⟨first, last, hrange, hproblem⟩
  · intro h
    have hsome := isSome_range?_iff.mpr h
    rw [hnone] at hsome
    cases hsome
  obtain ⟨hstart, hstop, hnonneg⟩ := range?_eq_some_iff.mp hrange
  rcases hproblem with ⟨rfl, hlt⟩ | ⟨rfl, hlt⟩ | ⟨rfl, hlt⟩ | ⟨rfl, hlt⟩ <;>
    rw [ReplacementProblem.HoldsOf]
  · rw [hstart, hstop]
    exact Number.intCast_lt.mpr hlt
  · rw [hstop]
    exact ⟨rfl, Number.intCast_lt.mpr hlt⟩
  · rw [hstart]
    obtain ⟨p, hp, hpstart, -⟩ := hprevious.exists_of_lt hnonneg (Or.inl hlt)
    exact ⟨Number.intCast_lt.mpr hlt, p, hp, hpstart⟩
  · rw [hstart]
    obtain ⟨p, hp, -, hpstop⟩ := hprevious.exists_of_lt hnonneg (Or.inr hlt)
    exact ⟨Number.intCast_lt.mpr hlt, p, hp, hpstop⟩

/-- Of replacements that are not accepted, those before the one that is reported are, and with that one
they are not. -/
theorem checkFrom_eq_error {length start stop : Nat} {previous : Option Replacement}
    {problem : ReplacementProblem} (hprevious : EndsAt start stop previous)
    (h : checkFrom length start stop rs = .error (r, problem)) :
    ∃ before after, rs = before ++ r :: after ∧
      (∃ edits, checkFrom length start stop before = .ok edits) ∧
      checkFrom length start stop (before ++ [r]) = .error (r, problem) ∧
      problem.HoldsOf length (before.getLast?.or previous) r := by
  induction rs generalizing start stop previous with
  | nil => cases h
  | cons first rest ih =>
    rw [checkFrom] at h
    cases he : first.toEdit length start stop with
    | error p =>
      rw [he] at h
      obtain ⟨rfl, rfl⟩ := Prod.mk.inj (Except.error.inj h)
      refine ⟨[], rest, rfl, ⟨[], rfl⟩, ?_, holdsOf_of_toEdit hprevious he⟩
      rw [List.nil_append, checkFrom, he]
    | ok e =>
      rw [he] at h
      obtain ⟨rfl, -, -, -, -⟩ := toEdit_eq_ok_iff.mp he
      rcases bind_eq_error_iff.mp h with h | ⟨edits, -, h⟩
      · have hbehind : EndsAt e.start e.stop (some e.toReplacement) := ⟨rfl, rfl⟩
        obtain ⟨before, after, rfl, ⟨edits, hedits⟩, herror, hproblem⟩ := ih hbehind h
        refine ⟨e.toReplacement :: before, after, rfl, ⟨e :: edits, ?_⟩, ?_, ?_⟩
        · rw [checkFrom, he]
          exact bind_eq_ok_iff.mpr ⟨edits, hedits, rfl⟩
        · rw [List.cons_append, checkFrom, he]
          exact bind_eq_error_iff.mpr (Or.inl herror)
        · rw [List.getLast?_cons]
          cases hlast : before.getLast? with
          | none =>
            rw [hlast] at hproblem
            exact hproblem
          | some last =>
            rw [hlast] at hproblem
            exact hproblem
      · cases h

/-- **The replacement that is reported** is the first one with which a list is not applicable, and what
is reported of it is so. -/
theorem checkReplacements_eq_error {e : BuildError} (h : checkReplacements t rs = .error e) :
    ∃ before r after problem, rs = before ++ r :: after ∧ Applicable t before ∧
      ¬ Applicable t (before ++ [r]) ∧ ReplacementProblem.HoldsOf t.length before.getLast? r problem ∧
      e = .replacement r problem (r.place? t) := by
  rw [checkReplacements] at h
  split at h
  · cases h
  · rename_i r problem hcheck
    have hnone : EndsAt 0 0 none := ⟨rfl, rfl⟩
    obtain ⟨before, after, rfl, ⟨edits, hedits⟩, herror, hproblem⟩ := checkFrom_eq_error hnone hcheck
    refine ⟨before, r, after, problem, rfl, ?_, ?_, ?_, (Except.error.inj h).symm⟩
    · refine exists_checkReplacements_eq_ok_iff.mp ⟨edits, ?_⟩
      rw [checkReplacements, check, hedits]
    · rw [← exists_checkReplacements_eq_ok_iff]
      rintro ⟨edits, hok⟩
      rw [checkReplacements, check, herror] at hok
      cases hok
    · rwa [Option.or_none] at hproblem

/-! ## Applicable replacements made -/

/-- A text with the range of a replacement exchanged for its content. -/
def exchange (r : Replacement) (t : Text) : Text :=
  t.slice 0 r.start ++ r.content ++ t.sliceFrom r.stop

/-- The number of units that a text gains by a replacement from an integer to an integer. -/
def gain (r : Replacement) : Int :=
  (r.content.length : Int) - (r.stop.toInt?.getD 0 - r.start.toInt?.getD 0)

theorem exchange_toReplacement (e : Edit) (t : Text) : e.toReplacement.exchange t = e.exchange t := by
  have hslice : t.slice 0 (e.start : Number) = t.take e.start := Text.slice_natCast t 0 e.start
  have hrest : t.sliceFrom (e.stop : Number) = t.drop e.stop := by
    rw [Text.sliceFrom, Text.clampIndex_natCast]
    rcases Nat.le_total e.stop t.length with h | h
    · rw [Nat.min_eq_left h]
    · rw [Nat.min_eq_right h, List.drop_length, List.drop_eq_nil_of_le h]
  rw [exchange, Edit.exchange, Edit.toReplacement, hslice, hrest]

theorem gain_toReplacement (e : Edit) : e.toReplacement.gain = e.gain := by
  rw [gain, Edit.gain, Edit.toReplacement]
  simp only [← Number.intCast_natCast, Number.toInt?_intCast, Option.getD_some]

/-- Each piece of a text with edits has something in it. -/
theorem piecesFrom_ne_nil {start : Nat} {edits : List Edit}
    (h : Edit.InOrder t.length start edits) :
    ∀ piece ∈ piecesFrom t (start : Number) (edits.map Edit.toReplacement), piece ≠ [] := by
  induction edits generalizing start with
  | nil =>
    rw [List.map_nil, piecesFrom]
    split
    · rename_i hlt
      have hlt := Number.natCast_lt.mp hlt
      refine List.forall_mem_singleton.mpr fun hnil => ?_
      rw [Text.sliceFrom, Text.clampIndex_natCast, Nat.min_eq_left (Nat.le_of_lt hlt),
        List.drop_eq_nil_iff] at hnil
      omega
    · simp
  | cons e rest ih =>
    obtain ⟨-, hrange, hrest⟩ := h
    have hstop := hrest.start_le_stop
    rw [List.map_cons, piecesFrom]
    refine List.forall_mem_append.mpr ⟨List.forall_mem_append.mpr ⟨?_, ?_⟩, ih hrest⟩
    · split
      · rename_i hlt
        have hlt : start < e.start := Number.natCast_lt.mp hlt
        refine List.forall_mem_singleton.mpr fun hnil => ?_
        rw [Edit.toReplacement, Text.slice_natCast, List.drop_eq_nil_iff, List.length_take] at hnil
        omega
      · simp
    · split
      · simp
      · rename_i hcontent
        exact List.forall_mem_singleton.mpr hcontent

theorem sum_gain_toReplacement (edits : List Edit) :
    ((edits.map Edit.toReplacement).map gain).sum = Edit.totalGain edits := by
  rw [List.map_map, Edit.totalGain]
  exact congrArg List.sum (List.map_congr_left fun e _ => gain_toReplacement e)

/-- **What a text with applicable replacements is**: the text in which the ranges have been exchanged one
by one, the last one first.  Its length is that of the text and what it gains by the replacements.  Its
pieces make it up, and have something in them each. -/
theorem splice_of_applicable (h : Applicable t rs) :
    splice t rs = rs.foldr exchange t ∧
      ((splice t rs).length : Int) = t.length + (rs.map gain).sum ∧
      (pieces t rs).flatten = splice t rs ∧ ∀ piece ∈ pieces t rs, piece ≠ [] := by
  obtain ⟨edits, horder, rfl⟩ := applicable_iff.mp h
  have hlength : ((splice t (edits.map Edit.toReplacement)).length : Int) =
      t.length + Edit.totalGain edits := by
    have hsplice : splice t (edits.map Edit.toReplacement) = Edit.spliceFrom t 0 edits :=
      Edit.splice_eq t edits
    rw [hsplice, Edit.length_spliceFrom horder]
    omega
  refine ⟨?_, ?_, flatten_pieces t _, piecesFrom_ne_nil horder⟩
  · rw [List.foldr_map]
    simp only [exchange_toReplacement]
    exact Edit.splice_eq_foldr horder
  · rw [sum_gain_toReplacement, hlength]

end Replacement

end Provenance
