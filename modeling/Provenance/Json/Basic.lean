/-
# JSON values

The values of a JSON text, and the words a value is shown with in messages.
-/
import Provenance.Assoc
import Provenance.Text.Basic

namespace Provenance

/-- A JSON value.  The keys of an object are distinct. -/
inductive Json where
  | null
  | bool (b : Bool)
  | num (x : Number)
  | str (t : Text)
  | arr (items : List Json)
  | obj (members : List (Text × Json))
  deriving Repr, Inhabited

namespace Json

/-- The value of an object's member. -/
def member? (key : Text) : Json → Option Json
  | obj members => members.lookup key
  | _ => none

/-- The text that a value is, if it is one. -/
def text? : Json → Option Text
  | str t => some t
  | _ => none

/-- The items, if the value is an array. -/
def items? : Json → Option (List Json)
  | arr items => some items
  | _ => none

/-! ## Values in messages -/

mutual

/-- The words for a value: texts as they are, arrays as their items' words between commas, objects
only as objects.  An object with a member called `toString` has no words. -/
def display : Json → Option Text
  | null => some "null"
  | bool true => some "true"
  | bool false => some "false"
  | num x => some (Text.ofNumber x)
  | str t => some t
  | arr items => displayItems items
  | obj members =>
    if (members.lookup ("toString" : Text)).isSome then none else some "[object Object]"

/-- The words for an item of an array; a missing item has none to show. -/
def displayItem : Json → Option Text
  | null => some []
  | bool b => display (bool b)
  | num x => display (num x)
  | str t => display (str t)
  | arr items => displayItems items
  | obj members =>
    if (members.lookup ("toString" : Text)).isSome then none else some "[object Object]"

/-- The words for the items of an array. -/
def displayItems : List Json → Option Text
  | [] => some []
  | [item] => displayItem item
  | item :: next :: rest => do
    let first ← displayItem item
    let others ← displayItems (next :: rest)
    some (first ++ "," ++ others)

end

end Json

end Provenance
