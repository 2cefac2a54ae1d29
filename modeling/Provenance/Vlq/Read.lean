/-
# Reading variable length quantities

A field is a run of digits with the continuation bit and a last digit without it.  The groups of
five bits are added up, lowest first; the lowest bit of the sum is the sign, the rest the magnitude.

The weight of a group beyond the 205th exceeds every binary64 value and counts as infinite: such a
group may only be zero, and then leaves the field without a value.

The main facts:

* `readValue_length` : reading a field takes at least one unit off the text;
* `stop_add_length` : a field ends where the rest of the text begins.
-/
import Provenance.Mapping.DecodeError
import Provenance.Text.Base64

namespace Provenance.Vlq

/-- A comma ends a segment, a semicolon a line. -/
abbrev comma : CodeUnit := 44

/-- A comma ends a segment, a semicolon a line. -/
abbrev semicolon : CodeUnit := 59

/-- Whether a unit ends a list of fields. -/
def endsFields (u : CodeUnit) : Bool := u == comma || u == semicolon

/-! ## The value of a field -/

/-- The largest sum of groups. -/
abbrev maxWord : Nat := 0xFFFFFFFF

/-- The number of groups whose weight is finite. -/
abbrev finitePlaces : Nat := 205

/-- What a group counts for at its place. -/
def weight (place : Nat) : Nat := Nat.pow 32 place

/-- The sum of a field's groups after one more group, `none` inside if the sum has no value.  There
is no such sum if the limit is exceeded. -/
def addGroup (place : Nat) (sum : Option Nat) (group : Nat) : Option (Option Nat) :=
  match sum with
  | none => some none
  | some total =>
    if place < finitePlaces then
      if total + group * weight place ≤ maxWord then some (some (total + group * weight place))
      else none
    else if group = 0 then some none
    else none

/-- The signed number of a sum of groups: its lowest bit is the sign. -/
def signed : Option Nat → Number
  | none => .nan
  | some total =>
    if total % 2 = 1 then ((-(total / 2 : Nat) : Int) : Number) else ((total / 2 : Nat) : Number)

/-! ## One field -/

/-- A field that has been read. -/
structure Field where
  value : Number
  /-- The offset just after the field. -/
  stop : Nat
  /-- What follows the field. -/
  rest : Text
  deriving DecidableEq, Repr

/-- Reads on in the field that starts at offset `start`, of which `place` digits have been read. -/
def readDigits (start place : Nat) (sum : Option Nat) : Text → Except DecodeError Field
  | [] => .error (.truncated (start + place))
  | u :: rest =>
    if endsFields u then .error (.truncated (start + place))
    else
      match Base64.digitOf? u with
      | none => .error (.invalidUnit u (start + place))
      | some d =>
        match addGroup place sum (d % 32) with
        | none => .error (.tooLarge start (place + 1))
        | some sum =>
          if 32 ≤ d then readDigits start (place + 1) sum rest
          else .ok ⟨signed sum, start + place + 1, rest⟩

/-- Reads the field in front of a text that starts at offset `start`. -/
def readValue (start : Nat) (t : Text) : Except DecodeError Field := readDigits start 0 (some 0) t

/-- A field ends where the rest of the text begins, and takes at least one unit. -/
theorem readDigits_stop {start place : Nat} {sum : Option Nat} {t : Text} {f : Field}
    (h : readDigits start place sum t = .ok f) :
    f.stop + f.rest.length = start + place + t.length ∧ f.rest.length < t.length := by
  induction t generalizing place sum with
  | nil => simp [readDigits] at h
  | cons u rest ih =>
    unfold readDigits at h
    split at h
    · simp at h
    · split at h
      · simp at h
      · split at h
        · simp at h
        · split at h
          · have := ih h
            simp only [List.length_cons]
            omega
          · simp only [Except.ok.injEq] at h
            subst h
            simp only [List.length_cons]
            omega

/-- Reading a field takes at least one unit off the text. -/
theorem readValue_length {start : Nat} {t : Text} {f : Field} (h : readValue start t = .ok f) :
    f.rest.length < t.length := (readDigits_stop h).2

/-- A field ends where the rest of the text begins. -/
theorem stop_add_length {start : Nat} {t : Text} {f : Field} (h : readValue start t = .ok f) :
    f.stop + f.rest.length = start + t.length := (readDigits_stop h).1

/-! ## All fields -/

/-- The fields that can be read one after the other, and the fault that stops the reading before the
end of the text. -/
structure Reading where
  fields : List Field
  error : Option DecodeError
  deriving DecidableEq, Repr

/-- Reads fields up to the end of a text that starts at offset `start`. -/
def readAll (start : Nat) (t : Text) : Reading :=
  if t = [] then ⟨[], none⟩
  else
    match _h : readValue start t with
    | .error e => ⟨[], some e⟩
    | .ok f =>
      let others := readAll f.stop f.rest
      ⟨f :: others.fields, others.error⟩
termination_by t.length
decreasing_by exact readValue_length _h

/-- Reads fields from an offset of a text on; behind its end there is nothing to read. -/
def readFrom (t : Text) (start : Nat) : Reading := readAll start (t.drop start)

/-- The values, if nothing stops the reading. -/
def Reading.values (r : Reading) : Except DecodeError (List Number) :=
  match r.error with
  | some e => .error e
  | none => .ok (r.fields.map Field.value)

/-- The offset at which the reading ends that began at `start`. -/
def Reading.stop (r : Reading) (start : Nat) : Nat :=
  match r.error with
  | some e => e.stop
  | none => (r.fields.getLast?.map Field.stop).getD start

end Provenance.Vlq
