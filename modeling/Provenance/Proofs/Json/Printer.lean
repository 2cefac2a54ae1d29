/-
# Reading JSON text back

A quoted text is read back as the text that was quoted.  Therefore the text of a document tells where
each value in it ends, and which value it is.

The main facts:

* `stringBody_escape` : a quoted text is read back;
* `render_append_inj` : the text of a value determines the value;
* `renderMembers_append_inj` : the text of an object determines its members;
* `wellFormed_escape` : a quoted text is well formed, even if the text is not.
-/
import Provenance.Json.Parser
import Provenance.Json.Printer
import Provenance.Proofs.Text.Utf8

namespace Provenance.Json

open CodeUnit (hexDigit)

/-! ## Quoted texts -/

/-- A hexadecimal digit is read back. -/
theorem hexValue?_hexDigit {n : Nat} (h : n < 16) : hexValue? (hexDigit n) = some n := by
  have hall : ∀ n < 16, hexValue? (hexDigit n) = some n := by decide
  exact hall n h

/-- A unit is read back from its four digits. -/
theorem hexUnit?_hexDigits (u : CodeUnit) :
    hexUnit? (hexDigit (u.toNat / 4096)) (hexDigit (u.toNat / 256 % 16))
      (hexDigit (u.toNat / 16 % 16)) (hexDigit (u.toNat % 16)) = some u := by
  have hu : u.toNat < 65536 := u.toNat_lt
  unfold hexUnit?
  rw [hexValue?_hexDigit (by omega), hexValue?_hexDigit (by omega), hexValue?_hexDigit (by omega),
    hexValue?_hexDigit (by omega)]
  have hvalue : ((u.toNat / 4096 * 16 + u.toNat / 256 % 16) * 16 + u.toNat / 16 % 16) * 16 +
      u.toNat % 16 = u.toNat := by omega
  show some _ = some u
  rw [hvalue]
  simp [Nat.toUInt16]

/-- A unit that needs no escape is read as it is. -/
theorem stringBody_cons {u : CodeUnit} (hquote : u ≠ 34) (hslash : u ≠ 92) (hcontrol : ¬ u < 32)
    (rest : Text) :
    stringBody (u :: rest) = (stringBody rest).map fun (body, after) => (u :: body, after) := by
  rw [stringBody.eq_def]
  simp only [if_neg hquote, if_neg hslash, if_neg hcontrol]
  cases stringBody rest with
  | none => rfl
  | some read => rfl

/-- An escape of one letter is read as the unit it stands for. -/
theorem stringBody_letter {e u : CodeUnit} (he : e ≠ 117) (hu : unescape? e = some u)
    (rest : Text) :
    stringBody (92 :: e :: rest) = (stringBody rest).map fun (body, after) => (u :: body, after) := by
  have hslash : ¬ (92 : CodeUnit) = 34 := by decide
  rw [stringBody.eq_def]
  simp only [if_neg hslash, if_true, if_neg he, hu]
  cases stringBody rest with
  | none => rfl
  | some read => rfl

/-- A hexadecimal escape is read as the unit it names. -/
theorem stringBody_hexEscape (u : CodeUnit) (rest : Text) :
    stringBody (hexEscape u ++ rest) =
      (stringBody rest).map fun (body, after) => (u :: body, after) := by
  show stringBody (92 :: 117 :: hexDigit (u.toNat / 4096) :: hexDigit (u.toNat / 256 % 16) ::
    hexDigit (u.toNat / 16 % 16) :: hexDigit (u.toNat % 16) :: rest) = _
  have hslash : ¬ (92 : CodeUnit) = 34 := by decide
  rw [stringBody.eq_def]
  simp only [if_neg hslash, if_true, hexUnit?_hexDigits]
  cases stringBody rest with
  | none => rfl
  | some read => rfl

/-- A unit is read back, escaped or not. -/
theorem stringBody_escapeUnit (u : CodeUnit) (rest : Text) :
    stringBody (escapeUnit u ++ rest) =
      (stringBody rest).map fun (body, after) => (u :: body, after) := by
  unfold escapeUnit
  -- the seven units that have an escape of one letter
  iterate 7
    split
    · rename_i h
      rw [h]
      exact stringBody_letter (by decide) rfl rest
  split
  · exact stringBody_hexEscape u rest
  split
  · exact stringBody_hexEscape u rest
  · exact stringBody_cons ‹_› ‹_› ‹_› rest

/-- **A quoted text is read back.** -/
theorem stringBody_escape (t rest : Text) : stringBody (escape t ++ 34 :: rest) = some (t, rest) := by
  fun_induction escape t with
  | case1 => exact stringBody_quote rest
  | case2 u => rw [stringBody_escapeUnit, stringBody_quote, Option.map_some]
  | case3 u v t hpair ih =>
    rw [Bool.and_eq_true, CodeUnit.isHighSurrogate_iff, CodeUnit.isLowSurrogate_iff] at hpair
    have hplain : ∀ w : CodeUnit, 0xD800 ≤ w.toNat → w ≠ 34 ∧ w ≠ 92 ∧ ¬ w < 32 := by
      intro w hw
      refine ⟨?_, ?_, ?_⟩
      · rintro rfl
        exact absurd hw (by decide)
      · rintro rfl
        exact absurd hw (by decide)
      · rw [UInt16.lt_iff_toNat_lt]
        show ¬ w.toNat < 32
        omega
    obtain ⟨hu, hu', hu''⟩ := hplain u (by omega)
    obtain ⟨hv, hv', hv''⟩ := hplain v (by omega)
    rw [List.cons_append, List.cons_append, stringBody_cons hu hu' hu'',
      stringBody_cons hv hv' hv'', ih]
    rfl
  | case4 u v t hpair ih =>
    rw [List.append_assoc, stringBody_escapeUnit, ih, Option.map_some]

/-- A quoted text, with what follows it. -/
theorem quote_append (t x : Text) : quote t ++ x = 34 :: (escape t ++ 34 :: x) := by
  show 34 :: escape t ++ [34] ++ x = _
  simp

/-- A quoted text determines the text. -/
theorem quote_append_inj {s t x y : Text} (h : quote s ++ x = quote t ++ y) : s = t ∧ x = y := by
  rw [quote_append, quote_append] at h
  have h := congrArg stringBody (List.cons.inj h).2
  rw [stringBody_escape, stringBody_escape] at h
  exact Prod.mk.inj (Option.some.inj h)

/-! ## Values -/

/-- A value made of texts, null, the number 3 and arrays of such values. -/
inductive Simple : Json → Prop where
  | null : Simple null
  | three : Simple (num 3)
  | str (t : Text) : Simple (str t)
  | arr {items : List Json} (hitems : ∀ item ∈ items, Simple item) : Simple (arr items)

/-- What the text of a simple value starts with, by the kind of the value. -/
def firstUnit : Json → CodeUnit
  | null => 110
  | num _ => 51
  | str _ => 34
  | arr _ => 91
  | _ => 0

theorem render_three : render (num 3) = [51] := by decide +kernel

/-- The text of a simple value starts with a unit that tells its kind. -/
theorem Simple.render_eq {j : Json} (h : j.Simple) : ∃ t, render j = firstUnit j :: t := by
  cases h with
  | null => exact ⟨_, rfl⟩
  | three => exact ⟨_, render_three⟩
  | str t => exact ⟨_, rfl⟩
  | arr h => exact ⟨_, rfl⟩

/-- Texts of simple values that start with the same unit are of one kind. -/
theorem firstUnit_eq_of_render_append {j k : Json} (hj : j.Simple) (hk : k.Simple) {x y : Text}
    (h : render j ++ x = render k ++ y) : firstUnit j = firstUnit k := by
  obtain ⟨s, hs⟩ := hj.render_eq
  obtain ⟨t, ht⟩ := hk.render_eq
  rw [hs, ht] at h
  exact (List.cons.inj h).1

/-- No simple value starts like the end of an array. -/
theorem Simple.firstUnit_ne {j : Json} (h : j.Simple) : firstUnit j ≠ 93 := by
  cases h with
  | null => decide
  | three => decide
  | str t => exact (by decide : (34 : CodeUnit) ≠ 93)
  | arr h => exact (by decide : (91 : CodeUnit) ≠ 93)

/-- What follows the first of some items: nothing if it is the only one, else a comma and the text of
the others. -/
def following {α : Type} (others : List α) (t : Text) : Text :=
  match others with
  | [] => []
  | _ :: _ => 44 :: t

/-- The end of a list of items tells whether others follow. -/
theorem following_append_inj {α : Type} {as bs : List α} {s t x y : Text} {c : CodeUnit}
    (hc : c ≠ 44) (h : following as s ++ c :: x = following bs t ++ c :: y) :
    (as = [] ∧ bs = [] ∧ x = y) ∨ s ++ c :: x = t ++ c :: y := by
  cases as with
  | nil =>
    cases bs with
    | nil => exact Or.inl ⟨rfl, rfl, (List.cons.inj h).2⟩
    | cons b bs => exact absurd (List.cons.inj h).1 hc
  | cons a as =>
    cases bs with
    | nil => exact absurd (List.cons.inj h).1.symm hc
    | cons b bs => exact Or.inr (List.cons.inj h).2

theorem renderItems_cons (item : Json) (items : List Json) :
    renderItems (item :: items) = render item ++ following items (renderItems items) := by
  cases items with
  | nil => simp [renderItems, following]
  | cons next rest =>
    rw [renderItems, List.append_assoc]
    rfl

/-- The text of an array, with what follows it. -/
theorem render_arr (items : List Json) (x : Text) :
    render (arr items) ++ x = 91 :: (renderItems items ++ 93 :: x) := by
  rw [render]
  show 91 :: (renderItems items ++ [93] ++ x) = _
  rw [List.append_assoc]
  rfl

/-- The text of an array determines the items, if the texts of the items do. -/
theorem renderItems_append_inj {items others : List Json}
    (hread : ∀ item ∈ items, ∀ other : Json, other.Simple → ∀ x y : Text,
      render item ++ x = render other ++ y → item = other ∧ x = y)
    (hitems : ∀ item ∈ items, item.Simple) (hothers : ∀ other ∈ others, other.Simple)
    {x y : Text} (h : renderItems items ++ 93 :: x = renderItems others ++ 93 :: y) :
    items = others ∧ x = y := by
  induction items generalizing others with
  | nil =>
    cases others with
    | nil => exact ⟨rfl, (List.cons.inj h).2⟩
    | cons other others =>
      obtain ⟨t, ht⟩ := (hothers other (List.mem_cons_self ..)).render_eq
      rw [renderItems_cons, ht] at h
      exact absurd (List.cons.inj h).1.symm (hothers other (List.mem_cons_self ..)).firstUnit_ne
  | cons item items ih =>
    obtain ⟨hitem, hrest⟩ := List.forall_mem_cons.mp hitems
    obtain ⟨hreadItem, hreadRest⟩ := List.forall_mem_cons.mp hread
    cases others with
    | nil =>
      obtain ⟨t, ht⟩ := hitem.render_eq
      rw [renderItems_cons, ht] at h
      exact absurd (List.cons.inj h).1 hitem.firstUnit_ne
    | cons other others =>
      obtain ⟨hother, hotherRest⟩ := List.forall_mem_cons.mp hothers
      rw [renderItems_cons, renderItems_cons, List.append_assoc, List.append_assoc] at h
      obtain ⟨rfl, hnext⟩ := hreadItem other hother _ _ h
      rcases following_append_inj (by decide) hnext with ⟨rfl, rfl, hxy⟩ | hnext
      · exact ⟨rfl, hxy⟩
      · obtain ⟨rfl, hxy⟩ := ih hreadRest hrest hotherRest hnext
        exact ⟨rfl, hxy⟩

/-- **The text of a simple value determines the value.** -/
theorem render_append_inj {j k : Json} (hj : j.Simple) (hk : k.Simple) {x y : Text}
    (h : render j ++ x = render k ++ y) : j = k ∧ x = y := by
  -- by induction on the first value; the first units tell that the other is of the same kind
  induction hj generalizing k x y with
  | null =>
    have hunit := firstUnit_eq_of_render_append .null hk h
    cases hk with
    | null => exact ⟨rfl, List.append_cancel_left h⟩
    | three => cases hunit
    | str t => cases hunit
    | arr _ => cases hunit
  | three =>
    have hunit := firstUnit_eq_of_render_append .three hk h
    cases hk with
    | null => cases hunit
    | three => exact ⟨rfl, List.append_cancel_left h⟩
    | str t => cases hunit
    | arr _ => cases hunit
  | str s =>
    have hunit := firstUnit_eq_of_render_append (.str s) hk h
    cases hk with
    | null => cases hunit
    | three => cases hunit
    | str t =>
      obtain ⟨rfl, hxy⟩ := quote_append_inj h
      exact ⟨rfl, hxy⟩
    | arr _ => cases hunit
  | arr hitems ih =>
    have hunit := firstUnit_eq_of_render_append (.arr hitems) hk h
    cases hk with
    | null => cases hunit
    | three => cases hunit
    | str t => cases hunit
    | arr hothers =>
      rw [render_arr, render_arr] at h
      obtain ⟨rfl, hxy⟩ := renderItems_append_inj (fun item hitem other hother x y h =>
        ih item hitem hother h) hitems hothers (List.cons.inj h).2
      exact ⟨rfl, hxy⟩

/-! ## Members -/

theorem renderMembers_cons (key : Text) (item : Json) (members : List (Text × Json)) :
    renderMembers ((key, item) :: members) =
      quote key ++ 58 :: (render item ++ following members (renderMembers members)) := by
  cases members with
  | nil =>
    simp only [renderMembers, following, List.append_nil, List.append_assoc]
    rfl
  | cons next rest =>
    simp only [renderMembers, List.append_assoc]
    rfl

/-- The text of an object. -/
theorem render_obj (members : List (Text × Json)) :
    render (obj members) = 123 :: (renderMembers members ++ [125]) := by
  rw [render]
  rfl

/-- **The text of an object with simple values determines its members.** -/
theorem renderMembers_append_inj {members others : List (Text × Json)}
    (hmembers : ∀ m ∈ members, m.2.Simple) (hothers : ∀ m ∈ others, m.2.Simple) {x y : Text}
    (h : renderMembers members ++ 125 :: x = renderMembers others ++ 125 :: y) :
    members = others ∧ x = y := by
  induction members generalizing others with
  | nil =>
    cases others with
    | nil => exact ⟨rfl, (List.cons.inj h).2⟩
    | cons other others =>
      rw [renderMembers_cons] at h
      exact absurd (List.cons.inj h).1 (by decide)
  | cons member members ih =>
    obtain ⟨key, item⟩ := member
    obtain ⟨hitem, hrest⟩ := List.forall_mem_cons.mp hmembers
    cases others with
    | nil =>
      rw [renderMembers_cons] at h
      exact absurd (List.cons.inj h).1 (by decide)
    | cons other others =>
      obtain ⟨key', item'⟩ := other
      obtain ⟨hother, hotherRest⟩ := List.forall_mem_cons.mp hothers
      rw [renderMembers_cons, renderMembers_cons, List.append_assoc, List.append_assoc] at h
      obtain ⟨rfl, hvalue⟩ := quote_append_inj h
      rw [List.cons_append, List.cons_append, List.append_assoc, List.append_assoc] at hvalue
      obtain ⟨rfl, hnext⟩ := render_append_inj hitem hother (List.cons.inj hvalue).2
      rcases following_append_inj (by decide) hnext with ⟨rfl, rfl, hxy⟩ | hnext
      · exact ⟨rfl, hxy⟩
      · obtain ⟨rfl, hxy⟩ := ih hrest hotherRest hnext
        exact ⟨rfl, hxy⟩

/-! ## Well-formed texts -/

/-- An escape is ASCII, whatever the unit. -/
theorem isAscii_hexEscape (u : CodeUnit) : (hexEscape u).isAscii = true := by
  have hall : ∀ n < 16, (hexDigit n).toNat < 0x80 := by decide
  have hu : u.toNat < 65536 := u.toNat_lt
  refine Text.isAscii_append rfl (Text.isAscii_iff.mpr ?_)
  intro v hv
  simp only [List.mem_cons, List.not_mem_nil, or_false] at hv
  rcases hv with rfl | rfl | rfl | rfl
  all_goals exact hall _ (by omega)

/-- A unit as it stands between quotes is well formed, whatever the unit. -/
theorem wellFormed_escapeUnit (u : CodeUnit) : (escapeUnit u).wellFormed = true := by
  unfold escapeUnit
  iterate 7
    split
    · exact Text.wellFormed_of_isAscii rfl
  split
  · exact Text.wellFormed_of_isAscii (isAscii_hexEscape u)
  split
  · exact Text.wellFormed_of_isAscii (isAscii_hexEscape u)
  · rename_i hsurrogate
    rw [Bool.not_eq_true, Bool.or_eq_false_iff] at hsurrogate
    rw [Text.wellFormed, hsurrogate.1, hsurrogate.2]
    rfl

/-- **What stands between quotes is well formed**, whatever the text. -/
theorem wellFormed_escape (t : Text) : (escape t).wellFormed = true := by
  fun_induction escape t with
  | case1 => rfl
  | case2 u => exact wellFormed_escapeUnit u
  | case3 u v t hpair ih =>
    rw [Bool.and_eq_true] at hpair
    rw [Text.wellFormed, if_pos hpair.1, hpair.2, ih]
    rfl
  | case4 u v t hpair ih => exact Text.wellFormed_append (wellFormed_escapeUnit u) ih

theorem wellFormed_quote (t : Text) : (quote t).wellFormed = true := by
  unfold quote
  rw [List.append_assoc]
  exact Text.wellFormed_append rfl (Text.wellFormed_append (wellFormed_escape t) rfl)

theorem wellFormed_following {α : Type} (others : List α) {t : Text} (h : t.wellFormed = true) :
    (following others t).wellFormed = true := by
  cases others with
  | nil => rfl
  | cons other others => exact (Text.wellFormed_cons (by decide) t).trans h

theorem wellFormed_renderItems {items : List Json}
    (h : ∀ item ∈ items, (render item).wellFormed = true) :
    (renderItems items).wellFormed = true := by
  induction items with
  | nil => rfl
  | cons item items ih =>
    obtain ⟨hitem, hitems⟩ := List.forall_mem_cons.mp h
    rw [renderItems_cons]
    exact Text.wellFormed_append hitem (wellFormed_following items (ih hitems))

/-- The text of a simple value is well formed. -/
theorem Simple.wellFormed_render {j : Json} (h : j.Simple) : (render j).wellFormed = true := by
  induction h with
  | null => rfl
  | three =>
    rw [render_three]
    rfl
  | str t => exact wellFormed_quote t
  | arr _ ih =>
    rw [render, List.append_assoc]
    exact Text.wellFormed_append rfl (Text.wellFormed_append (wellFormed_renderItems ih) rfl)

/-- The text of an object with simple values is well formed. -/
theorem wellFormed_renderMembers {members : List (Text × Json)} (h : ∀ m ∈ members, m.2.Simple) :
    (renderMembers members).wellFormed = true := by
  induction members with
  | nil => rfl
  | cons member members ih =>
    obtain ⟨key, item⟩ := member
    obtain ⟨hitem, hmembers⟩ := List.forall_mem_cons.mp h
    rw [renderMembers_cons]
    apply Text.wellFormed_append (wellFormed_quote key)
    rw [Text.wellFormed_cons (by decide)]
    exact Text.wellFormed_append hitem.wellFormed_render (wellFormed_following members (ih hmembers))

end Provenance.Json
