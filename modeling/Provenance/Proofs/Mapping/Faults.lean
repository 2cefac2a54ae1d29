/-
# Where the fault of a text is

A mappings text that is not decoded is reported with an offset.  What stands in front of the segment that
the offset belongs to is decoded on its own, so that nothing is wrong with it.  A unit that is no digit,
the end of a segment inside a field, and the place where a segment is missing are reported at the unit that
rules the text out: no text that starts as this one does up to that unit is decoded.

The main facts:

* `read_eq_error` : where a segment that cannot be read is reported;
* `decode_before` : up to a separator in front of the fault, a text is decoded;
* `decode_of_take` : a fault that shows at its offset shows in every text with the same start;
* `decode_reports_first_fault` : where the fault of a text is.
-/
import Mathlib.Data.List.DropRight
import Provenance.Proofs.Except
import Provenance.Proofs.Mapping.Scanner

namespace Provenance

open Vlq (SeparatorFree)
open Segment.Scanner

/-- A fault that shows at the offset that it is reported at: there is a unit that is no digit, or the
segment ends there inside a field or without any. -/
def DecodeError.ShowsAtOffset : DecodeError → Prop
  | truncated _ | invalidUnit _ _ | emptySegment _ => True
  | tooLarge _ _ | fieldCount _ _ | negative _ _ _ => False

namespace MappingTable

variable {r : Running} {e : DecodeError} {t : Text}

/-! ## One segment -/

section

variable {α β : Type} {offset : Nat}

/-- What goes wrong in a computation is reported at an offset, where it does not show. -/
def FaultsAt (offset : Nat) (x : Except DecodeError α) : Prop :=
  ∀ e, x = .error e → e.position = offset ∧ ¬ e.ShowsAtOffset

theorem FaultsAt.ok (a : α) : FaultsAt offset (.ok a) := by
  intro e h
  cases h

theorem FaultsAt.bind {x : Except DecodeError α} {f : α → Except DecodeError β}
    (hx : FaultsAt offset x) (hf : ∀ a, FaultsAt offset (f a)) : FaultsAt offset (x >>= f) := by
  intro e h
  rcases bind_eq_error_iff.mp h with h | ⟨a, -, h⟩
  · exact hx e h
  · exact hf a e h

theorem check_faultsAt (field : MappingField) (value : Number) :
    FaultsAt offset (check field value offset) := by
  intro e h
  unfold check at h
  split at h
  · obtain rfl := Except.error.inj h
    exact ⟨rfl, id⟩
  · cases h

theorem moveColumn_faultsAt (r : Running) (column : Number) :
    FaultsAt offset (r.moveColumn column offset) :=
  (check_faultsAt _ _).bind fun _ => .ok _

theorem moveOrigin_faultsAt (r : Running) (source line column : Number) :
    FaultsAt offset (r.moveOrigin source line column offset) :=
  (check_faultsAt _ _).bind fun _ => (check_faultsAt _ _).bind fun _ =>
    (check_faultsAt _ _).bind fun _ => .ok _

theorem moveName_faultsAt (r : Running) (name : Number) :
    FaultsAt offset (r.moveName name offset) :=
  (check_faultsAt _ _).bind fun _ => .ok _

/-- Running values that become negative, and numbers of fields that make no entry, are reported at the
start of the segment. -/
theorem step_faultsAt (r : Running) (fields : List Number) : FaultsAt offset (r.step offset fields) := by
  unfold Running.step
  split
  · exact (moveColumn_faultsAt _ _).bind fun _ => .ok _
  · exact (moveColumn_faultsAt _ _).bind fun _ => (moveOrigin_faultsAt _ _ _ _).bind fun _ => .ok _
  · exact (moveColumn_faultsAt _ _).bind fun _ => (moveOrigin_faultsAt _ _ _ _).bind fun _ =>
      (moveName_faultsAt _ _).bind fun _ => .ok _
  · intro e h
    obtain rfl := Except.error.inj h
    exact ⟨rfl, id⟩

end

theorem values_eq_error {reading : Vlq.Reading} (h : reading.values = .error e) :
    reading.error = some e := by
  unfold Vlq.Reading.values at h
  split at h
  · rename_i e' he
    rw [he, Except.error.inj h]
  · cases h

/-- **Where a segment that cannot be read is reported**: in the segment, and at its end if the fault shows
there and is no unit that is no digit. -/
theorem read_eq_error {s : Segment} (hs : SeparatorFree s.units) (h : r.read s = .error e) :
    s.offset ≤ e.position ∧ e.position ≤ s.stop ∧
      (e.ShowsAtOffset → e.position = s.stop ∨ ∃ u p, e = .invalidUnit u p) := by
  unfold Running.read at h
  split at h
  · rename_i hunits
    obtain rfl := Except.error.inj h
    have hstop : s.stop = s.offset := by rw [Segment.stop, hunits, List.length_nil, Nat.add_zero]
    rw [hstop]
    exact ⟨Nat.le_refl _, Nat.le_refl _, fun _ => Or.inl rfl⟩
  · have hle : s.offset ≤ s.stop := Nat.le_add_right _ _
    rcases bind_eq_error_iff.mp h with hvalues | ⟨fields, -, hstep⟩
    · rcases Vlq.readAll_eq_error hs (values_eq_error hvalues) with rfl | ⟨u, p, rfl, hlow, hhigh⟩ |
        ⟨p, digits, rfl, hlow, hhigh⟩
      · exact ⟨hle, Nat.le_refl _, fun _ => Or.inl rfl⟩
      · exact ⟨hlow, Nat.le_of_lt hhigh, fun _ => Or.inr ⟨u, p, rfl⟩⟩
      · exact ⟨hlow, hhigh, fun hshows => hshows.elim⟩
    · obtain ⟨hposition, hnot⟩ := step_faultsAt _ fields e hstep
      rw [hposition]
      exact ⟨Nat.le_refl _, hle, fun hshows => absurd hshows hnot⟩

/-- A segment with a unit that is no digit cannot be read, whatever comes behind that unit. -/
theorem read_append_of_invalidUnit {line offset p : Nat} {units more : Text} {u : CodeUnit}
    (hmore : SeparatorFree more)
    (h : r.read ⟨line, offset, units ++ more⟩ = .error (.invalidUnit u p))
    (hp : p < offset + units.length) (more' : Text) (r' : Running) :
    r'.read ⟨line, offset, units ++ more'⟩ = .error (.invalidUnit u p) := by
  unfold Running.read at h
  split at h
  · cases h
  rcases bind_eq_error_iff.mp h with hvalues | ⟨fields, -, hstep⟩
  · have herror := Vlq.readAll_append_of_invalidUnit hmore (values_eq_error hvalues) hp more'
    have hne : ¬ units ++ more' = [] := by
      intro hnil
      rw [hnil] at herror
      rw [Vlq.readAll, if_pos rfl] at herror
      cases herror
    rw [Running.read, if_neg hne]
    refine bind_eq_error_iff.mpr (Or.inl ?_)
    rw [Vlq.Reading.values, herror]
  · exact absurd trivial (step_faultsAt _ fields _ hstep).2

/-! ## All segments -/

/-- What is wrong with some segments is wrong with them and others behind. -/
theorem decodeFrom_append_of_error {xs : List Segment} (h : decodeFrom r xs = .error e)
    (ys : List Segment) : decodeFrom r (xs ++ ys) = .error e := by
  rw [decodeFrom_append, h]
  rfl

/-- Segments that are read are left behind. -/
theorem decodeFrom_append_of_ok {xs : List Segment} {entries : MappingTable} {r' : Running}
    (h : decodeFrom r xs = .ok (entries, r')) {ys : List Segment} :
    decodeFrom r (xs ++ ys) = .error e ↔ decodeFrom r' ys = .error e := by
  rw [decodeFrom_append, h]
  show (decodeFrom r' ys >>= fun others => .ok (entries ++ others.1, others.2)) = .error e ↔ _
  rw [bind_eq_error_iff]
  simp

/-- The reading of some segments fails where one of them cannot be read. -/
theorem exists_read_eq_error {segments : List Segment} (h : decodeFrom r segments = .error e) :
    ∃ s ∈ segments, ∃ r', Running.read r' s = .error e := by
  induction segments generalizing r with
  | nil => cases h
  | cons s rest ih =>
    rcases bind_eq_error_iff.mp h with hread | ⟨⟨m, r'⟩, -, h⟩
    · exact ⟨s, List.mem_cons_self, r, hread⟩
    · rcases bind_eq_error_iff.mp h with hothers | ⟨_, -, h⟩
      · obtain ⟨s', hs', r'', hread⟩ := ih hothers
        exact ⟨s', List.mem_cons_of_mem s hs', r'', hread⟩
      · cases h

/-! ## Texts -/

theorem decode_eq_error_iff : decode t = .error e ↔ decodeFrom {} (Segment.all t) = .error e := by
  rw [decode, bind_eq_error_iff]
  simp

theorem exists_decode_eq_ok_iff :
    (∃ table, decode t = .ok table) ↔ ∃ result, decodeFrom {} (Segment.all t) = .ok result := by
  rw [decode]
  simp only [bind_eq_ok_iff]
  exact ⟨fun ⟨_, result, h, _⟩ => ⟨result, h⟩, fun ⟨result, h⟩ => ⟨_, result, h, rfl⟩⟩

/-- The fault of a text is reported in the text, or at its end. -/
theorem position_le_length (h : decode t = .error e) : e.position ≤ t.length := by
  obtain ⟨s, hs, r, hread⟩ := exists_read_eq_error (decode_eq_error_iff.mp h)
  rw [Segment.all_eq_segments] at hs
  obtain ⟨hfree, -, hstop⟩ := segments_spec clean_start t s hs
  have hstart : stop {} = 0 := rfl
  have := (read_eq_error hfree hread).2.1
  omega

/-! ## In front of the fault -/

/-- What the scanner has found behind a separator in front of the fault is read. -/
theorem exists_decodeFrom_reach {front rest : Text} {u : CodeUnit}
    (h : decode (front ++ [u] ++ rest) = .error e) (hp : front.length < e.position) :
    ∃ result, decodeFrom {} (reach {} (front ++ [u])).1 = .ok result := by
  rw [decode_eq_error_iff, Segment.all_append] at h
  cases hresult : decodeFrom {} (reach {} (front ++ [u])).1 with
  | ok result => exact ⟨result, rfl⟩
  | error e' =>
    -- the first fault would stand in front of the separator
    rw [decodeFrom_append_of_error hresult] at h
    obtain rfl := Except.error.inj h
    obtain ⟨s, hs, r, hread⟩ := exists_read_eq_error hresult
    obtain ⟨-, -, -, hfinished⟩ := reach_spec clean_start (front ++ [u])
    obtain ⟨hfree, -, hstop⟩ := hfinished s hs
    have hstart : stop {} = 0 := rfl
    have := (read_eq_error hfree hread).2.1
    rw [List.length_append, List.length_singleton] at hstop
    omega

/-- **Up to a separator in front of the fault a text is decoded**, without a comma, and with a
semicolon. -/
theorem decode_before {front rest : Text} {u : CodeUnit}
    (h : decode (front ++ [u] ++ rest) = .error e) (hu : Vlq.endsFields u = true)
    (hp : front.length < e.position) :
    (∃ table, decode front = .ok table) ∧
      (u = Vlq.semicolon → ∃ table, decode (front ++ [u]) = .ok table) := by
  obtain ⟨result, hresult⟩ := exists_decodeFrom_reach h hp
  constructor
  · obtain ⟨more, hmore⟩ := Segment.all_prefix_reach hu front
    rw [exists_decode_eq_ok_iff]
    cases hfront : decodeFrom {} (Segment.all front) with
    | ok before => exact ⟨before, rfl⟩
    | error e' =>
      rw [← hmore, decodeFrom_append_of_error hfront] at hresult
      cases hresult
  · rintro rfl
    rw [exists_decode_eq_ok_iff, Segment.all_concat_semicolon]
    exact ⟨result, hresult⟩

/-! ## At the fault -/

/-- A fault shows in every text with the same front, if it does once the front has been read. -/
theorem decode_of_front {front rest rest' : Text} (h : decode (front ++ rest) = .error e)
    (hrest : ∀ r, decodeFrom r (segments (reach {} front).2 rest) = .error e →
      decodeFrom r (segments (reach {} front).2 rest') = .error e) :
    decode (front ++ rest') = .error e := by
  rw [decode_eq_error_iff, Segment.all_append] at h ⊢
  cases hresult : decodeFrom {} (reach {} front).1 with
  | error e' =>
    rw [decodeFrom_append_of_error hresult] at h ⊢
    exact h
  | ok result =>
    rw [decodeFrom_append_of_ok hresult] at h ⊢
    exact hrest _ h

/-- A fault at a separator shows in every text with the same start. -/
theorem decode_of_separator {front rest : Text} {u : CodeUnit}
    (h : decode (front ++ [u] ++ rest) = .error e) (hu : Vlq.endsFields u = true)
    (hp : e.position = front.length) (rest' : Text) : decode (front ++ [u] ++ rest') = .error e := by
  refine decode_of_front h fun r hrest => ?_
  -- the segments behind the separator start behind it, too
  obtain ⟨s, hs, r, hread⟩ := exists_read_eq_error hrest
  obtain ⟨hclean, -, -, -⟩ := reach_spec clean_start (front ++ [u])
  obtain ⟨-, -, hstop, -⟩ := reach_spec clean_start front
  obtain ⟨hfree, hlow, -⟩ := segments_spec hclean rest s hs
  rw [reach_concat, offset_step hu] at hlow
  have hstart : stop {} = 0 := rfl
  have := (read_eq_error hfree hread).1
  omega

/-- A fault at the last unit of an open segment that shows there shows whatever comes then. -/
theorem decodeFrom_of_open {line offset : Nat} {units : Text} (hunits : SeparatorFree units)
    (h : decodeFrom r (segments ⟨line, offset, some units⟩ t) = .error e)
    (hp : e.position + 1 = offset + units.length) (hshows : e.ShowsAtOffset) (t' : Text) :
    decodeFrom r (segments ⟨line, offset, some units⟩ t') = .error e := by
  obtain ⟨more, others, hsegments, hothers⟩ := segments_open line offset hunits t
  obtain ⟨more', others', hsegments', -⟩ := segments_open line offset hunits t'
  obtain ⟨hfree, -, -⟩ := segments_spec (s := ⟨line, offset, some units⟩) hunits t _
    (hsegments ▸ List.mem_cons_self)
  rw [hsegments] at h
  rw [hsegments']
  rcases bind_eq_error_iff.mp h with hread | ⟨⟨m, r'⟩, -, h⟩
  · obtain ⟨-, -, hreported⟩ := read_eq_error hfree hread
    rcases hreported hshows with hend | ⟨u, p, rfl⟩
    · -- the segment ends behind the unit
      rw [Segment.stop, List.length_append] at hend
      dsimp only at hend
      omega
    · have hmore : SeparatorFree more := fun v hv => hfree v (List.mem_append_right _ hv)
      have hp : p + 1 = offset + units.length := hp
      exact bind_eq_error_iff.mpr
        (Or.inl (read_append_of_invalidUnit hmore hread (by omega) more' r))
  · rcases bind_eq_error_iff.mp h with h | ⟨_, -, h⟩
    · -- the segments behind the open one start behind the unit
      obtain ⟨s, hs, r'', hread⟩ := exists_read_eq_error h
      obtain ⟨hfree, hlow⟩ := hothers s hs
      have := (read_eq_error hfree hread).1
      omega
    · cases h

/-- A fault at a unit that is no separator, if it shows there, shows in every text with the same start. -/
theorem decode_of_unit {front rest : Text} {u : CodeUnit}
    (h : decode (front ++ [u] ++ rest) = .error e) (hu : Vlq.endsFields u = false)
    (hp : e.position = front.length) (hshows : e.ShowsAtOffset) (rest' : Text) :
    decode (front ++ [u] ++ rest') = .error e := by
  refine decode_of_front h fun r hrest => ?_
  -- the segment with the unit is open behind it
  obtain ⟨line, offset, units, hopen⟩ : ∃ line offset units,
      (reach {} (front ++ [u])).2 = ⟨line, offset, some units⟩ := by
    rw [reach_concat, step_of_endsFields_false hu]
    exact ⟨_, _, _, rfl⟩
  obtain ⟨hclean, -, hstop, -⟩ := reach_spec clean_start (front ++ [u])
  rw [hopen] at hrest hclean hstop ⊢
  have hunits : SeparatorFree units := hclean
  have hstop : offset + units.length = 0 + (front ++ [u]).length := hstop
  rw [List.length_append, List.length_singleton] at hstop
  exact decodeFrom_of_open hunits hrest (by omega) hshows rest'

/-! ## Where the fault of a text is -/

/-- **A fault that shows at its offset shows in every text with the same start**, up to the unit at the
offset. -/
theorem decode_of_take {t' : Text} (h : decode t = .error e) (hshows : e.ShowsAtOffset)
    (hp : e.position < t.length) (ht' : t'.take (e.position + 1) = t.take (e.position + 1)) :
    decode t' = .error e := by
  have hfront : t.take (e.position + 1) = t.take e.position ++ [t[e.position]] :=
    List.take_succ_eq_append_getElem hp
  have hlength : e.position = (t.take e.position).length := by
    rw [List.length_take, Nat.min_eq_left (Nat.le_of_lt hp)]
  rw [← List.take_append_drop (e.position + 1) t, hfront] at h
  rw [← List.take_append_drop (e.position + 1) t', ht', hfront]
  cases hu : Vlq.endsFields t[e.position] with
  | true => exact decode_of_separator h hu hlength _
  | false => exact decode_of_unit h hu hlength hshows _

/-- A text up to its last separator, with that. -/
def throughSeparator (t : Text) : Text := t.rdropWhile fun u => !Vlq.endsFields u

/-- A text without the comma at its end, if there is one. -/
def withoutComma (t : Text) : Text := if t.getLast? = some Vlq.comma then t.dropLast else t

/-- In front of the segment that the fault is reported in, a text is decoded. -/
theorem decode_throughSeparator (h : decode t = .error e) :
    ∃ table, decode (withoutComma (throughSeparator (t.take e.position))) = .ok table := by
  rcases List.eq_nil_or_concat (throughSeparator (t.take e.position)) with hnil | ⟨front, u, hconcat⟩
  · rw [hnil]
    exact ⟨[], by decide +kernel⟩
  · rw [List.concat_eq_append] at hconcat
    have hu : Vlq.endsFields u = true := by
      have hne : throughSeparator (t.take e.position) ≠ [] := by rw [hconcat]; simp
      have hlast := List.rdropWhile_last_not _ _ hne
      simp only [throughSeparator] at hconcat
      simp only [hconcat] at hlast
      simpa using hlast
    obtain ⟨middle, hmiddle⟩ : front ++ [u] <+: t.take e.position := by
      rw [← hconcat]
      exact List.rdropWhile_prefix _ _
    have hp : front.length < e.position := by
      have hlength := congrArg List.length hmiddle
      rw [List.length_append, List.length_append, List.length_singleton, List.length_take] at hlength
      omega
    have ht : front ++ [u] ++ (middle ++ t.drop e.position) = t := by
      rw [← List.append_assoc, hmiddle, List.take_append_drop]
    rw [← ht] at h
    obtain ⟨hcomma, hsemicolon⟩ := decode_before h hu hp
    rw [hconcat, withoutComma, List.getLast?_concat, List.dropLast_concat]
    split
    · exact hcomma
    · rename_i hne
      rw [Vlq.endsFields, Bool.or_eq_true, beq_iff_eq, beq_iff_eq] at hu
      exact hsemicolon (hu.resolve_left fun hu => hne (congrArg some hu))

/-- **Where the fault of a text is.**  It is reported in the text or at its end.  The text up to the last
separator in front of the offset is decoded, without the comma if the separator is one.  If there is a
unit at the offset, and the fault is an empty segment, a unit that is no digit or a field that is cut off,
then every text that starts as this one does up to that unit has this fault. -/
theorem decode_reports_first_fault {t : Text} {e : DecodeError} (h : decode t = .error e) :
    e.position ≤ t.length ∧
      (∃ table, decode (withoutComma (throughSeparator (t.take e.position))) = .ok table) ∧
      (e.ShowsAtOffset → e.position < t.length →
        ∀ t' : Text, t'.take (e.position + 1) = t.take (e.position + 1) → decode t' = .error e) :=
  ⟨position_le_length h, decode_throughSeparator h, fun hshows hp _ ht' =>
    decode_of_take h hshows hp ht'⟩

/-- Behind a line and a comma stands a unit that is no digit; what follows has more faults. -/
theorem decode_reports_first_fault_invalidUnit :
    decode "AAAA;A,g!;,," = .error (.invalidUnit 33 8) ∧
      withoutComma (throughSeparator (List.take 8 "AAAA;A,g!;,,")) = "AAAA;A" ∧
      (∃ table, decode "AAAA;A" = .ok table) ∧ decode "AAAA;A,g!AA" = .error (.invalidUnit 33 8) := by
  have h : decode "AAAA;A,g!;,," = .error (.invalidUnit 33 8) := by decide +kernel
  obtain ⟨-, hbefore, hstart⟩ := decode_reports_first_fault h
  have htext : withoutComma (throughSeparator (List.take 8 "AAAA;A,g!;,,")) = "AAAA;A" := by
    decide +kernel
  refine ⟨h, htext, ?_, hstart trivial (by decide +kernel) "AAAA;A,g!AA" (by decide +kernel)⟩
  rwa [← htext]

end MappingTable

end Provenance
