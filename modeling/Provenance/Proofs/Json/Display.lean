/-
# Values that have no words

Messages show a value in words.  An object is shown as an object, unless a member of it hides how it would
be shown; then there are no words for it, nor for an array that it stands in.

The main facts:

* `display_eq_none_iff` : which values have no words.
-/
import Provenance.Json.Basic

namespace Provenance.Json

/-- A value with an object in it that has a member called `toString`. -/
inductive Wordless : Json → Prop where
  | obj {members : List (Text × Json)} (h : (members.lookup ("toString" : Text)).isSome) :
      Wordless (obj members)
  | arr {items : List Json} {item : Json} (hmem : item ∈ items) (h : Wordless item) :
      Wordless (arr items)

theorem wordless_obj_iff {members : List (Text × Json)} :
    Wordless (obj members) ↔ (members.lookup ("toString" : Text)).isSome := by
  constructor
  · rintro ⟨h⟩
    exact h
  · exact .obj

theorem wordless_arr_iff {items : List Json} :
    Wordless (arr items) ↔ ∃ item ∈ items, Wordless item := by
  constructor
  · rintro (_ | ⟨hmem, h⟩)
    exact ⟨_, hmem, h⟩
  · rintro ⟨item, hmem, h⟩
    exact .arr hmem h

mutual

/-- An item has no words if it is, or has in it, an object that has none. -/
theorem displayItem_eq_none_iff : ∀ j : Json, j.displayItem = none ↔ j.Wordless
  | null => iff_of_false (by simp [displayItem]) nofun
  | bool true => iff_of_false (by simp [displayItem, display]) nofun
  | bool false => iff_of_false (by simp [displayItem, display]) nofun
  | num x => iff_of_false (by simp [displayItem, display]) nofun
  | str t => iff_of_false (by simp [displayItem, display]) nofun
  | arr items => by rw [displayItem, displayItems_eq_none_iff items, wordless_arr_iff]
  | obj members => by
    rw [displayItem, wordless_obj_iff]
    simp

theorem displayItems_eq_none_iff : ∀ items : List Json,
    displayItems items = none ↔ ∃ item ∈ items, item.Wordless
  | [] => by simp [displayItems]
  | [item] => by
    rw [displayItems, displayItem_eq_none_iff item]
    simp
  | item :: next :: rest => by
    have hexists : (∃ j ∈ item :: next :: rest, j.Wordless) ↔
        item.Wordless ∨ ∃ j ∈ next :: rest, j.Wordless := by simp
    rw [displayItems, hexists, ← displayItem_eq_none_iff item,
      ← displayItems_eq_none_iff (next :: rest)]
    cases displayItem item with
    | none => simp
    | some first => cases displayItems (next :: rest) <;> simp

end

/-- **A value has no words if an object in it has a member called `toString`.** -/
theorem display_eq_none_iff (j : Json) : j.display = none ↔ j.Wordless := by
  rw [← displayItem_eq_none_iff]
  cases j with
  | null => simp [display, displayItem]
  | bool b => cases b <;> simp [displayItem]
  | num x => simp [displayItem]
  | str t => simp [displayItem]
  | arr items => simp [display, displayItem]
  | obj members => simp [display, displayItem]

end Provenance.Json
