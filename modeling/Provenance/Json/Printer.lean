/-
# JSON text

The compact text of a JSON value.  Texts are written unit by unit: quotes, backslashes and control
units are escaped, and so are surrogates that stand alone, so that a JSON text is always well formed
if nothing else in it is not.

The main facts:

* `escape_cons_of_plain` : a unit that needs no escape is written as it is.
-/
import Provenance.Json.Basic

namespace Provenance.Json

open CodeUnit (hexDigit)

/-! ## Quoted texts -/

/-- The escape that names a unit by its four hexadecimal digits. -/
def hexEscape (u : CodeUnit) : Text :=
  let n := u.toNat
  ("\\u" : Text) ++
    [hexDigit (n / 4096), hexDigit (n / 256 % 16), hexDigit (n / 16 % 16), hexDigit (n % 16)]

/-- A unit that is not part of a surrogate pair, as it stands between quotes. -/
def escapeUnit (u : CodeUnit) : Text :=
  if u = 34 then "\\\""
  else if u = 92 then "\\\\"
  else if u = 8 then "\\b"
  else if u = 9 then "\\t"
  else if u = 10 then "\\n"
  else if u = 12 then "\\f"
  else if u = 13 then "\\r"
  else if u < 32 then hexEscape u
  else if u.isHighSurrogate || u.isLowSurrogate then hexEscape u
  else [u]

/-- A text as it stands between quotes. -/
def escape : Text → Text
  | [] => []
  | [u] => escapeUnit u
  | u :: v :: rest =>
    if u.isHighSurrogate && v.isLowSurrogate then u :: v :: escape rest
    else escapeUnit u ++ escape (v :: rest)

/-- A text between quotes. -/
def quote (t : Text) : Text := ("\"" : Text) ++ escape t ++ "\""

/-- A unit that needs no escape is written as it is. -/
theorem escape_cons_of_plain {u : CodeUnit} (rest : Text) (h : escapeUnit u = [u])
    (hu : u.isHighSurrogate = false) : escape (u :: rest) = u :: escape rest := by
  cases rest with
  | nil => simp [escape, h]
  | cons v rest => simp [escape, h, hu]

/-! ## Values -/

mutual

/-- The compact text of a value; a number without a finite value is written as null. -/
def render : Json → Text
  | null => "null"
  | bool true => "true"
  | bool false => "false"
  | num (.finite q) => Text.ofNumber (.finite q)
  | num _ => "null"
  | str t => quote t
  | arr items => ("[" : Text) ++ renderItems items ++ "]"
  | obj members => ("\x7b" : Text) ++ renderMembers members ++ "\x7d"

/-- The items of an array, separated by commas. -/
def renderItems : List Json → Text
  | [] => []
  | [item] => render item
  | item :: next :: rest => render item ++ "," ++ renderItems (next :: rest)

/-- The members of an object, separated by commas. -/
def renderMembers : List (Text × Json) → Text
  | [] => []
  | [(key, item)] => quote key ++ ":" ++ render item
  | (key, item) :: next :: rest =>
    quote key ++ ":" ++ render item ++ "," ++ renderMembers (next :: rest)

end

end Provenance.Json
