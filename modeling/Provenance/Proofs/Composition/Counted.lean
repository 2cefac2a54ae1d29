/-
# Natural lines and columns of origins

Where the lines and columns of the origins in a result have a value, they are naturals: those of files
and of decoded maps are, and an origin that is moved along its line moves forward only.

The main facts:

* `counted_originAt` : the origin of a position has a natural line and column;
* `file_counted`, `join_counted`, `edit_counted`, `generate_counted` : each way of composing keeps the
  lines and columns of origins natural;
* `within_of_integers` : integers up to a bound are naturals up to it.
-/
import Provenance.Proofs.Composition.Edit
import Provenance.Proofs.Composition.File
import Provenance.Proofs.Composition.Generate
import Provenance.Proofs.Composition.Join
import Provenance.Proofs.Mapping.Renumber

namespace Provenance

/-! ## Counts -/

namespace Number

variable {x : Number}

/-- A count that is an integer up to a bound is a natural up to it. -/
theorem Count.upTo (hx : x.Count) {bound : Nat} (hinteger : x.isInteger = true)
    (hle : x ≤ (bound : Number)) : x.UpTo bound := by
  rcases hx with rfl | rfl | ⟨n, rfl⟩
  · cases hinteger
  · cases hinteger
  · exact ⟨n, natCast_le.mp hle, rfl⟩

end Number

/-- The numbers of an entry are integers up to a bound. -/
def Mapping.IntegersUpTo (bound : Nat) (m : Mapping) : Prop :=
  ∀ x ∈ m.line :: m.fields.toList, x.isInteger = true ∧ x ≤ (bound : Number)

instance (bound : Nat) (m : Mapping) : Decidable (m.IntegersUpTo bound) :=
  inferInstanceAs (Decidable (∀ x ∈ m.line :: m.fields.toList,
    x.isInteger = true ∧ x ≤ (bound : Number)))

namespace Composition

variable {b c : Composition}

/-! ## Ways of composing -/

theorem plain_counted (t : Text) : (plain t).Counted := by
  simp [Counted, Mark.Counted, marks, plain]

theorem file_counted (t name : Text) : (file t name).Counted := by
  intro mark hmark o ho
  obtain rfl := Option.some.inj ((mem_marks_file hmark).2.symm.trans ho)
  exact ⟨Number.Count.natCast _, Number.Count.natCast _⟩

theorem joinMarks_counted {cs : List Composition} (hcounted : ∀ c ∈ cs, c.Counted) :
    Mark.Counted (joinMarks [] cs) := by
  intro mark hmark o ho
  obtain ⟨first, c, rest, rfl, own, hown, rfl⟩ := exists_of_mem_joinMarks hmark ho
  exact hcounted c (by simp) own hown o ho

theorem join_counted {cs : List Composition} (hproper : ∀ c ∈ cs, c.Proper)
    (hcounted : ∀ c ∈ cs, c.Counted) : (join cs).Counted :=
  counted_of_normalForm rfl (markedBy_join hproper) (joinMarks_counted hcounted)

/-- Behind their end, on a line of its own, joined results go on from where their end comes from, below
2^53. -/
theorem capped_originAt_join {cs : List Composition} (hproper : ∀ c ∈ cs, c.Proper)
    (hcounted : ∀ c ∈ cs, c.Counted)
    (hline : (join cs).text = [] ∨ (join cs).text.getLast? = some CodeUnit.newline)
    (distance : Nat) :
    ((join cs).originAt ((join cs).text.countNewlines : Number) (distance : Number)).map
        OriginPosition.capped =
      (((join cs).originAtOffset (join cs).text.length).map
        (OriginPosition.advance · distance)).map OriginPosition.capped := by
  have h := capped_originAt_stop_add rfl (markedBy_join hproper) (joinMarks_counted hcounted) distance
  rwa [Text.stop_column_eq_zero.mpr hline, Nat.zero_add, Text.stop_line] at h

theorem edit_counted (hproper : b.Proper) (hcounted : b.Counted) {edits : List Edit}
    (horder : Edit.InOrder b.text.length 0 edits) : (b.edit edits).Counted := by
  exact counted_of_normalForm rfl (markedBy_edit hproper horder)
    (marks_edit_counted hproper hcounted edits)

/-- A map is traced through results from its own lines and columns on. -/
theorem generate_counted {node : GeneratedText} {results : List (Option Composition)}
    {table : MappingTable} (h : (generate node results table).2 = .ok c)
    (hcounts : ∀ m ∈ table, ∀ x ∈ m.fields.toList, x.Count)
    (hresults : ∀ r, some r ∈ results → r.Proper ∧ r.Counted) : c.Counted := by
  obtain ⟨entries, -, hmappings, hentries⟩ := generate_spec h
  rw [counted_iff]
  intro m' hm' o' ho'
  rw [hmappings] at hm'
  obtain ⟨m, hm, hresolved⟩ := exists_mem_of_forall₂ hentries (MappingTable.normalForm_subset hm')
  have horigin := hresolved.origin
  rw [Option.mem_def.mp ho'] at horigin
  cases ho : m.origin with
  | none =>
    rw [ho] at horigin
    cases horigin
  | some o =>
    rw [ho] at horigin
    cases horigin with
    | some hlocation =>
      have hfields := hcounts m (List.mem_filter.mp hm).1
      have hline : o.line.Count := hfields _ (by simp [Mapping.fields, ho, Fields.toList])
      have hcolumn : o.column.Count := hfields _ (by simp [Mapping.fields, ho, Fields.toList])
      obtain ⟨index, hindex, htraced⟩ := Option.bind_eq_some_iff.mp hlocation.origin
      obtain ⟨⟨source, result⟩, hentry, htraced⟩ := Option.bind_eq_some_iff.mp htraced
      have hdescribed : (GeneratedText.traceThrough result
          ⟨some source, o.line, o.column, node.nameOf o⟩).Counted := by
        unfold GeneratedText.traceThrough
        split
        · rename_i t ht
          obtain ⟨r, rfl, ht⟩ := Option.bind_eq_some_iff.mp ht
          obtain ⟨hproper, hcounted⟩ :=
            hresults r (List.mem_of_getElem? (List.getElem?_zip_eq_some.mp hentry).2)
          obtain ⟨htLine, htColumn⟩ := counted_originAt hproper hcounted hcolumn ht
          exact ⟨htLine, htColumn⟩
        · exact ⟨hline, hcolumn⟩
      rw [Option.some.inj htraced] at hdescribed
      exact ⟨hdescribed.line, hdescribed.column⟩

/-! ## Integers up to a bound -/

/-- An index with a text is a natural. -/
theorem count_of_isSome_get? {t : TextTable} {index : Number} (h : (t.get? index).isSome) :
    index.Count := by
  obtain ⟨s, hs⟩ := Option.isSome_iff_exists.mp h
  obtain ⟨i, hi, -⟩ := Option.bind_eq_some_iff.mp hs
  exact Or.inr (Or.inr ⟨i, Number.eq_natCast_of_toNat? hi⟩)

/-- **Integers up to a bound are naturals up to it**, in a proper result whose origins are counted. -/
theorem within_of_integers (hproper : c.Proper) (hcounted : c.Counted) {bound : Nat} {m : Mapping}
    (hm : m ∈ c.mappings) (h : m.IntegersUpTo bound) : m.Within bound := by
  obtain ⟨hline, hfields⟩ := List.forall_mem_cons.mp h
  have hplaced := (hproper.inText m hm).placed
  have hupTo : ∀ x : Number, x.Count → (x.isInteger = true ∧ x ≤ (bound : Number)) → x.UpTo bound :=
    fun x hx hbounded => hx.upTo hbounded.1 hbounded.2
  have hlineCount : m.line.Count := by
    rw [hplaced.line]
    exact Number.Count.natCast _
  have hcolumnCount : m.column.Count := by
    rw [hplaced.column]
    exact Number.Count.natCast _
  refine ⟨hupTo _ hlineCount hline, hupTo _ hcolumnCount (hfields _ ?_), fun o ho => ?_⟩
  · exact Fields.mem_toList_iff.mpr ⟨.generatedColumn, rfl⟩
  · obtain ⟨hsource, hname⟩ := hproper.known m hm o ho
    obtain ⟨hoLine, hoColumn⟩ := counted_iff.mp hcounted m hm o ho
    have hall : ∀ x ∈ o.source :: o.line :: o.column :: o.name.toList,
        x.isInteger = true ∧ x ≤ (bound : Number) := by
      intro x hx
      refine hfields x ?_
      rw [Mapping.fields, Option.mem_def.mp ho]
      exact List.mem_cons_of_mem _ hx
    simp only [List.forall_mem_cons, Option.mem_toList] at hall
    obtain ⟨hs, hl, hk, hn⟩ := hall
    exact ⟨hupTo _ (count_of_isSome_get? hsource) hs, hupTo _ hoLine hl, hupTo _ hoColumn hk,
      fun n hname' => hupTo _ (count_of_isSome_get? (hname n hname')) (hn n hname')⟩

end Composition

end Provenance
