/-
# The table of a file

A file maps to itself.  Its text is cut into tokens, runs of text that end with the punctuation
of a statement or a block or with a line; each token has an entry at its start.

The main facts:

* `first_append_after` : a token and what follows it are the text;
* `flatten_all` : the tokens make up the text.
-/
import Provenance.Mapping.Basic
import Provenance.Text.Basic

namespace Provenance

/-! ## Tokens -/

namespace Token

/-- Statements and blocks end with one of `;`, `{` and `}`. -/
def isPunctuation (u : CodeUnit) : Bool := u == 59 || u == 123 || u == 125

/-- The units that may start a token: all but line feeds and punctuation. -/
def isPlain (u : CodeUnit) : Bool := u != CodeUnit.newline && !isPunctuation u

/-- The units that may follow the plain ones: punctuation and blanks. -/
def isTrailing (u : CodeUnit) : Bool := isPunctuation u || u == 32 || u == 13 || u == 9

/-- The line feed in front of a text, if there is one. -/
def newlineOf : Text → Text
  | u :: _ => if u = CodeUnit.newline then [u] else []
  | [] => []

/-- What follows the plain units in front of a text. -/
def afterBody (t : Text) : Text := t.dropWhile isPlain

/-- What follows the plain and the trailing units in front of a text. -/
def afterTrail (t : Text) : Text := (afterBody t).dropWhile isTrailing

/-- The token in front of a text: plain units, trailing units, and a line feed. -/
def first (t : Text) : Text :=
  t.takeWhile isPlain ++ (afterBody t).takeWhile isTrailing ++ newlineOf (afterTrail t)

/-- What follows the token in front of a text. -/
def after (t : Text) : Text := (afterTrail t).drop (newlineOf (afterTrail t)).length

/-- The line feed of a text is in front of it. -/
theorem newlineOf_append (t : Text) : newlineOf t ++ t.drop (newlineOf t).length = t := by
  cases t with
  | nil => rfl
  | cons u rest =>
    by_cases h : u = CodeUnit.newline
    · simp [newlineOf, h]
    · simp [newlineOf, h]

/-- A token and the rest are the text. -/
theorem first_append_after (t : Text) : first t ++ after t = t := by
  unfold first after
  rw [List.append_assoc, List.append_assoc, newlineOf_append]
  unfold afterTrail
  rw [List.takeWhile_append_dropWhile]
  unfold afterBody
  rw [List.takeWhile_append_dropWhile]

/-- There is a token in every text that has a unit. -/
theorem first_ne_nil {t : Text} (h : t ≠ []) : first t ≠ [] := by
  cases t with
  | nil => exact absurd rfl h
  | cons u rest =>
    by_cases hp : isPlain u = true
    · simp [first, hp]
    · by_cases ht : isTrailing u = true
      · simp [first, afterBody, hp, ht]
      · have hn : u = CodeUnit.newline := by
          simp only [isPlain, isTrailing, Bool.and_eq_true, Bool.or_eq_true, bne_iff_ne,
            Bool.not_eq_true', beq_iff_eq] at hp ht
          grind
        subst hn
        have hp : isPlain CodeUnit.newline = false := rfl
        have ht : isTrailing CodeUnit.newline = false := rfl
        simp [first, afterBody, afterTrail, hp, ht, newlineOf]

/-- What follows a token is shorter than the text. -/
theorem length_after_lt {t : Text} (h : t ≠ []) : (after t).length < t.length := by
  have ht := congrArg List.length (first_append_after t)
  have hf := List.length_pos_iff.mpr (first_ne_nil h)
  rw [List.length_append] at ht
  omega

/-- The tokens of a text. -/
def all (t : Text) : List Text :=
  if t = [] then [] else first t :: all (after t)
termination_by t.length
decreasing_by exact length_after_lt (by assumption)

/-- The tokens make up the text. -/
theorem flatten_all (t : Text) : (all t).flatten = t := by
  fun_induction all t with
  | case1 => rfl
  | case2 t h ih => rw [List.flatten_cons, ih, first_append_after]

end Token

/-! ## Entries -/

namespace MappingTable

/-- The entries at the starts of tokens, the first of which is at a given position. -/
def identityFrom (source : Number) (line column : Nat) : List Text → MappingTable
  | [] => []
  | token :: rest =>
    ⟨(line : Number), (column : Number), some ⟨source, (line : Number), (column : Number), none⟩⟩ ::
      if token.getLast? = some CodeUnit.newline then identityFrom source (line + 1) 0 rest
      else identityFrom source line (column + token.length) rest

/-- The table of a file: each token maps to itself. -/
def identity (t : Text) (source : Number) : MappingTable := identityFrom source 0 0 (Token.all t)

end MappingTable

end Provenance
