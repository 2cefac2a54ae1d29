/-
# Reading JSON text

`parse` accepts exactly the texts of the JSON grammar.  Of two members with one key the later value
counts.  Numbers are read as their nearest binary64 values.

The main facts:

* `stringBody_quote` : a closing quote ends a text.
-/
import Provenance.Json.Basic

namespace Provenance.Json

/-! ## Units -/

/-- Blanks may stand between any two tokens. -/
def isBlank (u : CodeUnit) : Bool := u == 32 || u == 9 || u == 10 || u == 13

/-- The text without the blanks in front. -/
def dropBlanks (t : Text) : Text := t.dropWhile isBlank

/-- The decimal digits. -/
def isDigit (u : CodeUnit) : Bool := 48 ≤ u && u ≤ 57

/-- The value of a hexadecimal digit of either case. -/
def hexValue? (u : CodeUnit) : Option Nat :=
  let n := u.toNat
  if 48 ≤ n ∧ n ≤ 57 then some (n - 48)
  else if 97 ≤ n ∧ n ≤ 102 then some (n - 87)
  else if 65 ≤ n ∧ n ≤ 70 then some (n - 55)
  else none

/-- The unit named by four hexadecimal digits. -/
def hexUnit? (a b c d : CodeUnit) : Option CodeUnit := do
  let a ← hexValue? a
  let b ← hexValue? b
  let c ← hexValue? c
  let d ← hexValue? d
  some (((a * 16 + b) * 16 + c) * 16 + d).toUInt16

/-- The unit that a one letter escape stands for. -/
def unescape? (u : CodeUnit) : Option CodeUnit :=
  if u = 34 ∨ u = 92 ∨ u = 47 then some u
  else if u = 98 then some 8
  else if u = 102 then some 12
  else if u = 110 then some 10
  else if u = 114 then some 13
  else if u = 116 then some 9
  else none

/-! ## Texts and numbers -/

/-- The text up to the closing quote, and what follows the quote. -/
def stringBody : Text → Option (Text × Text)
  | [] => none
  | u :: rest =>
    if u = 34 then some ([], rest)
    else if u = 92 then
      match rest with
      | [] => none
      | e :: rest =>
        if e = 117 then
          match rest with
          | a :: b :: c :: d :: rest => do
            let v ← hexUnit? a b c d
            let (body, after) ← stringBody rest
            some (v :: body, after)
          | _ => none
        else do
          let v ← unescape? e
          let (body, after) ← stringBody rest
          some (v :: body, after)
    else if u < 32 then none
    else do
      let (body, after) ← stringBody rest
      some (u :: body, after)

/-- A closing quote ends a text. -/
theorem stringBody_quote (rest : Text) : stringBody (34 :: rest) = some ([], rest) := by
  unfold stringBody
  rfl

/-- The value of a run of decimal digits. -/
def digitsValue (ds : Text) : Nat := ds.foldl (fun n u => 10 * n + (u.toNat - 48)) 0

/-- A run of at least one digit, and what follows it. -/
def digits? (t : Text) : Option (Text × Text) :=
  match t.takeWhile isDigit with
  | [] => none
  | ds => some (ds, t.dropWhile isDigit)

/-- The digits after a decimal point, none if there is no point. -/
def fraction? (t : Text) : Option (Text × Text) :=
  match t with
  | 46 :: rest => digits? rest
  | _ => some ([], t)

/-- The exponent, 0 if there is none. -/
def exponent? (t : Text) : Option (Int × Text) :=
  match t with
  | e :: rest =>
    if e = 101 ∨ e = 69 then
      match rest with
      | 43 :: rest => (digits? rest).map fun (ds, after) => ((digitsValue ds : Int), after)
      | 45 :: rest => (digits? rest).map fun (ds, after) => (-(digitsValue ds : Int), after)
      | rest => (digits? rest).map fun (ds, after) => ((digitsValue ds : Int), after)
    else some (0, t)
  | [] => some (0, t)

/-- A number without its sign.  A leading zero stands alone before the point. -/
def unsigned? (negative : Bool) (t : Text) : Option (Number × Text) := do
  let (whole, t) ← digits? t
  if whole.head? = some 48 ∧ 1 < whole.length then none
  let (part, t) ← fraction? t
  let (e, t) ← exponent? t
  some (Number.ofDecimal negative (digitsValue (whole ++ part)) (e - part.length), t)

/-- A number, and what follows it. -/
def number? (t : Text) : Option (Number × Text) :=
  match t with
  | 45 :: rest => unsigned? true rest
  | _ => unsigned? false t

/-- What follows a given word in front. -/
def word? (word : Text) (t : Text) : Option Text :=
  if word.isPrefixOf t then some (t.drop word.length) else none

/-! ## Values -/

mutual

/-- A value, and what follows it.  The first argument bounds the depth of the recursion. -/
def valueFrom : Nat → Text → Option (Json × Text)
  | 0, _ => none
  | n + 1, t =>
    match dropBlanks t with
    | [] => none
    | u :: rest =>
      if u = 34 then (stringBody rest).map fun (s, after) => (str s, after)
      else if u = 91 then
        match dropBlanks rest with
        | 93 :: after => some (arr [], after)
        | rest => (itemsFrom n rest).map fun (xs, after) => (arr xs, after)
      else if u = 123 then
        match dropBlanks rest with
        | 125 :: after => some (obj [], after)
        | rest => (membersFrom n rest []).map fun (ms, after) => (obj ms, after)
      else if u = 110 then (word? "ull" rest).map fun after => (null, after)
      else if u = 116 then (word? "rue" rest).map fun after => (bool true, after)
      else if u = 102 then (word? "alse" rest).map fun after => (bool false, after)
      else (number? (u :: rest)).map fun (x, after) => (num x, after)

/-- At least one item, up to the closing bracket. -/
def itemsFrom : Nat → Text → Option (List Json × Text)
  | 0, _ => none
  | n + 1, t => do
    let (item, t) ← valueFrom n t
    match dropBlanks t with
    | 44 :: rest =>
      let (others, after) ← itemsFrom n rest
      some (item :: others, after)
    | 93 :: after => some ([item], after)
    | _ => none

/-- At least one member, up to the closing brace, added to the members read before. -/
def membersFrom : Nat → Text → List (Text × Json) → Option (List (Text × Json) × Text)
  | 0, _, _ => none
  | n + 1, t, before =>
    match dropBlanks t with
    | 34 :: rest => do
      let (key, rest) ← stringBody rest
      match dropBlanks rest with
      | 58 :: rest =>
        let (item, rest) ← valueFrom n rest
        let members := Assoc.insert key item before
        match dropBlanks rest with
        | 44 :: rest => membersFrom n rest members
        | 125 :: after => some (members, after)
        | _ => none
      | _ => none
    | _ => none

end

/-- The value of a JSON text.  Each unit of the text is reached at most twice as deep. -/
def parse (t : Text) : Option Json :=
  match valueFrom (2 * t.length + 2) t with
  | some (v, after) => if dropBlanks after = [] then some v else none
  | none => none

end Provenance.Json
