/-
# Parsing what was printed

The text of a document is parsed as that document: whatever follows the text of a value, the value is read
and what follows it is left.  Fuel for twice the length of the text is enough, and `parse` starts with that
much.

The main facts:

* `Simple.readsBack` : a simple value is read back;
* `parse_render_obj` : the text of an object with simple values is parsed as the object.
-/
import Provenance.Proofs.Json.Printer

namespace Provenance.Json

/-! ## What follows a value -/

/-- Nothing follows a value, or something that ends it. -/
def Ends (t : Text) : Prop := ∀ u ∈ t.head?, u = 44 ∨ u = 93 ∨ u = 125

theorem ends_cons {u : CodeUnit} (h : u = 44 ∨ u = 93 ∨ u = 125) (t : Text) : Ends (u :: t) := by
  intro v hv
  obtain rfl : u = v := by simpa using hv
  exact h

theorem ends_following {α : Type} (others : List α) (s : Text) {t : Text} (ht : Ends t) :
    Ends (following others s ++ t) := by
  cases others with
  | nil => exact ht
  | cons other others => exact ends_cons (Or.inl rfl) _

theorem dropBlanks_cons {u : CodeUnit} (h : isBlank u = false) (t : Text) :
    dropBlanks (u :: t) = u :: t := by
  rw [dropBlanks, List.dropWhile_cons_of_neg (by simp [h])]

/-- What ends a value is no part of a number. -/
theorem Ends.cases {t : Text} (h : Ends t) :
    t = [] ∨ ∃ u rest, t = u :: rest ∧ isDigit u = false ∧ u ≠ 46 ∧ u ≠ 101 ∧ u ≠ 69 := by
  cases t with
  | nil => exact Or.inl rfl
  | cons u rest =>
    refine Or.inr ⟨u, rest, rfl, ?_⟩
    rcases h u rfl with rfl | rfl | rfl <;> decide

/-- The version is read back. -/
theorem number?_three {t : Text} (h : Ends t) : number? (51 :: t) = some (3, t) := by
  have hthree : Number.ofDecimal false (digitsValue ([51] ++ [])) (0 - ([] : Text).length) = 3 := by
    decide +kernel
  have hdigits : digits? (51 :: t) = some ([51], t) := by
    rcases h.cases with rfl | ⟨u, rest, rfl, hu, -⟩
    · rfl
    · have hthree : isDigit 51 = true := rfl
      simp [digits?, hthree, hu]
  have hfraction : fraction? t = some ([], t) := by
    rcases h.cases with rfl | ⟨u, rest, rfl, -, hu, -⟩
    · rfl
    · unfold fraction?
      split
      · rename_i heq
        exact absurd (List.cons.inj heq).1 hu
      · rfl
  have hexponent : exponent? t = some (0, t) := by
    rcases h.cases with rfl | ⟨u, rest, rfl, -, -, hu⟩
    · rfl
    · simp [exponent?, hu]
  have hnumber : number? (51 :: t) = unsigned? false (51 :: t) := rfl
  rw [hnumber, unsigned?, hdigits]
  simp only [Option.bind_eq_bind, Option.bind_some, hfraction, hexponent, hthree]
  rfl

/-! ## Values -/

/-- A value is read back if the fuel is enough, whatever follows it. -/
def ReadsBack (j : Json) : Prop :=
  ∀ n x, 2 * (render j).length ≤ n → Ends x → valueFrom n (render j ++ x) = some (j, x)

theorem Simple.isBlank_firstUnit {j : Json} (h : j.Simple) : isBlank (firstUnit j) = false := by
  cases h <;> rfl

/-- Some fuel is needed for every value. -/
theorem Simple.exists_fuel {j : Json} (h : j.Simple) {n : Nat} (hn : 2 * (render j).length ≤ n) :
    ∃ k, n = k + 1 := by
  obtain ⟨t, ht⟩ := h.render_eq
  rw [ht, List.length_cons] at hn
  exact ⟨n - 1, by omega⟩

theorem readsBack_null : ReadsBack null := by
  intro n x hn _
  obtain ⟨k, rfl⟩ := Simple.null.exists_fuel hn
  rfl

theorem readsBack_three : ReadsBack (num 3) := by
  intro n x hn hx
  obtain ⟨k, rfl⟩ := Simple.three.exists_fuel hn
  rw [render_three]
  show (number? (51 :: x)).map _ = _
  rw [number?_three hx]
  rfl

theorem readsBack_str (t : Text) : ReadsBack (str t) := by
  intro n x hn _
  obtain ⟨k, rfl⟩ := (Simple.str t).exists_fuel hn
  have hquote : render (str t) ++ x = 34 :: (escape t ++ 34 :: x) := quote_append t x
  rw [hquote]
  show (stringBody (escape t ++ 34 :: x)).map _ = _
  rw [stringBody_escape]
  rfl

/-- The items of an array are read one after the other. -/
theorem itemsFrom_renderItems {items : List Json} (hne : items ≠ [])
    (hitems : ∀ item ∈ items, ReadsBack item) {n : Nat}
    (hn : 2 * (renderItems items).length + 1 ≤ n) (x : Text) :
    itemsFrom n (renderItems items ++ 93 :: x) = some (items, x) := by
  induction items generalizing n with
  | nil => exact absurd rfl hne
  | cons item rest ih =>
    obtain ⟨hitem, hrest⟩ := List.forall_mem_cons.mp hitems
    rw [renderItems_cons, List.length_append] at hn
    obtain ⟨k, rfl⟩ : ∃ k, n = k + 1 := ⟨n - 1, by omega⟩
    have hends : Ends (following rest (renderItems rest) ++ 93 :: x) :=
      ends_following _ _ (ends_cons (Or.inr (Or.inl rfl)) x)
    rw [renderItems_cons, List.append_assoc, itemsFrom, hitem k _ (by omega) hends]
    cases rest with
    | nil => rfl
    | cons next rest =>
      have hlength : (following (next :: rest) (renderItems (next :: rest))).length =
          (renderItems (next :: rest)).length + 1 := rfl
      show (itemsFrom k (renderItems (next :: rest) ++ 93 :: x)).bind _ = _
      rw [ih (List.cons_ne_nil _ _) hrest (by omega)]
      rfl

/-- An opening bracket that is not closed at once opens a list of items. -/
theorem valueFrom_bracket (n : Nat) {u : CodeUnit} (hblank : isBlank u = false) (hu : u ≠ 93)
    (t : Text) :
    valueFrom (n + 1) (91 :: u :: t) =
      (itemsFrom n (u :: t)).map fun (xs, after) => (arr xs, after) := by
  have hquote : ¬ (91 : CodeUnit) = 34 := by decide
  rw [valueFrom, dropBlanks_cons rfl]
  simp only [if_neg hquote, if_true, dropBlanks_cons hblank]
  split
  · rename_i heq
    exact absurd (List.cons.inj heq).1 hu
  · rfl

theorem readsBack_arr {items : List Json} (hsimple : ∀ item ∈ items, item.Simple)
    (hitems : ∀ item ∈ items, ReadsBack item) : ReadsBack (arr items) := by
  intro n x hn _
  obtain ⟨k, rfl⟩ := (Simple.arr hsimple).exists_fuel hn
  have hlength := congrArg List.length (render_arr items [])
  simp only [List.append_nil, List.length_append, List.length_cons, List.length_nil] at hlength
  rw [render_arr]
  cases items with
  | nil => rfl
  | cons item rest =>
    obtain ⟨t, ht⟩ := (hsimple item List.mem_cons_self).render_eq
    have hread := itemsFrom_renderItems (List.cons_ne_nil item rest) hitems (n := k) (by omega) x
    rw [renderItems_cons, ht, List.cons_append, List.cons_append] at hread ⊢
    rw [valueFrom_bracket k (hsimple item List.mem_cons_self).isBlank_firstUnit
      (hsimple item List.mem_cons_self).firstUnit_ne, hread]
    rfl

/-- **A simple value is read back.** -/
theorem Simple.readsBack {j : Json} (h : j.Simple) : ReadsBack j := by
  induction h with
  | null => exact readsBack_null
  | three => exact readsBack_three
  | str t => exact readsBack_str t
  | arr hitems ih => exact readsBack_arr hitems ih

/-! ## Objects -/

/-- A member is read and added to those before. -/
theorem membersFrom_member {n : Nat} {key : Text} {item : Json} {t rest : Text}
    {before : List (Text × Json)} (hitem : valueFrom n t = some (item, rest))
    (hkey : key ∉ Assoc.keys before) :
    membersFrom (n + 1) (quote key ++ 58 :: t) before =
      match dropBlanks rest with
      | 44 :: rest => membersFrom n rest (before ++ [(key, item)])
      | 125 :: after => some (before ++ [(key, item)], after)
      | _ => none := by
  rw [quote_append, membersFrom, dropBlanks_cons rfl, ← Assoc.insert_of_not_mem hkey]
  show (stringBody (escape key ++ 34 :: 58 :: t)).bind _ = _
  rw [stringBody_escape]
  show (valueFrom n t).bind _ = _
  rw [hitem]
  rfl

/-- The members of an object are read one after the other and added to those before. -/
theorem membersFrom_renderMembers {members before : List (Text × Json)} (hne : members ≠ [])
    (hmembers : ∀ m ∈ members, m.2.Simple)
    (hkeys : ((before ++ members).map Prod.fst).Nodup) {n : Nat}
    (hn : 2 * (renderMembers members).length + 1 ≤ n) (x : Text) :
    membersFrom n (renderMembers members ++ 125 :: x) before = some (before ++ members, x) := by
  induction members generalizing n before with
  | nil => exact absurd rfl hne
  | cons member rest ih =>
    obtain ⟨key, item⟩ := member
    obtain ⟨hitem, hrest⟩ := List.forall_mem_cons.mp hmembers
    have hkey : key ∉ Assoc.keys before := by
      rw [List.map_append, List.nodup_append] at hkeys
      exact fun hmem => hkeys.2.2 key hmem key List.mem_cons_self rfl
    rw [renderMembers_cons] at hn
    simp only [List.length_append, List.length_cons] at hn
    obtain ⟨k, rfl⟩ : ∃ k, n = k + 1 := ⟨n - 1, by omega⟩
    have hends : Ends (following rest (renderMembers rest) ++ 125 :: x) :=
      ends_following _ _ (ends_cons (Or.inr (Or.inr rfl)) x)
    have hread : valueFrom k (render item ++ _) = some (item, _) :=
      hitem.readsBack k _ (by simp only; omega) hends
    rw [renderMembers_cons, List.append_assoc, List.cons_append, List.append_assoc,
      membersFrom_member hread hkey]
    cases rest with
    | nil => rfl
    | cons next rest =>
      have hlength : (following (next :: rest) (renderMembers (next :: rest))).length =
          (renderMembers (next :: rest)).length + 1 := rfl
      show membersFrom k (renderMembers (next :: rest) ++ 125 :: x) (before ++ [(key, item)]) = _
      rw [ih (List.cons_ne_nil _ _) hrest (by rwa [List.append_assoc]) (by omega), List.append_assoc]
      rfl

/-- An opening brace in front of a quote opens a list of members. -/
theorem valueFrom_brace (n : Nat) (t : Text) :
    valueFrom (n + 1) (123 :: 34 :: t) =
      (membersFrom n (34 :: t) []).map fun (ms, after) => (obj ms, after) := by
  rw [valueFrom, dropBlanks_cons rfl]
  rfl

/-- **The text of an object with simple values is parsed as the object.** -/
theorem parse_render_obj {members : List (Text × Json)} (hmembers : ∀ m ∈ members, m.2.Simple)
    (hkeys : (members.map Prod.fst).Nodup) : parse (render (obj members)) = some (obj members) := by
  have hlength : (render (obj members)).length = (renderMembers members).length + 2 := by
    rw [render_obj, List.length_cons, List.length_append]
    rfl
  rw [parse, hlength, render_obj]
  cases members with
  | nil => rfl
  | cons member rest =>
    have hread : membersFrom (2 * ((renderMembers (member :: rest)).length + 2) + 1)
        (renderMembers (member :: rest) ++ [125]) [] = some (member :: rest, []) :=
      membersFrom_renderMembers (List.cons_ne_nil member rest) hmembers hkeys (by omega) []
    have hquote : ∃ t, renderMembers (member :: rest) ++ [125] = 34 :: t :=
      ⟨_, by rw [renderMembers_cons, List.append_assoc, quote_append]⟩
    obtain ⟨t, ht⟩ := hquote
    rw [ht] at hread ⊢
    rw [valueFrom_brace, hread]
    rfl

end Provenance.Json
