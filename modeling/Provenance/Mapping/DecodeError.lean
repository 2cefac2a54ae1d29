/-
# Malformed mappings texts

What can be wrong with a mappings text, where, and the words for it.
-/
import Provenance.Text.Basic

namespace Provenance

/-- The running values of a mappings text that may not become negative. -/
inductive MappingField where
  | generatedColumn
  | source
  | originLine
  | originColumn
  | name
  deriving DecidableEq, Repr

/-- The words for a running value. -/
def MappingField.words : MappingField → Text
  | generatedColumn => "generated column"
  | source => "source index"
  | originLine => "original line"
  | originColumn => "original column"
  | name => "name index"

/-- A fault of a mappings text, with the offset it is reported at. -/
inductive DecodeError where
  /-- The text or the segment ends inside a field. -/
  | truncated (offset : Nat)
  /-- A unit is no digit. -/
  | invalidUnit (unit : CodeUnit) (offset : Nat)
  /-- The field that starts at the offset exceeds 32 bits with the last of the digits read. -/
  | tooLarge (offset : Nat) (digits : Nat)
  /-- Nothing stands between two separators, or between the last one and the end. -/
  | emptySegment (offset : Nat)
  /-- A segment has a number of fields other than one, four or five. -/
  | fieldCount (count : Nat) (offset : Nat)
  /-- A running value becomes negative. -/
  | negative (field : MappingField) (value : Number) (offset : Nat)
  deriving DecidableEq, Repr

namespace DecodeError

/-- The offset a fault is reported at. -/
def position : DecodeError → Nat
  | truncated p => p
  | invalidUnit _ p => p
  | tooLarge p _ => p
  | emptySegment p => p
  | fieldCount _ p => p
  | negative _ _ p => p

/-- The offset up to which a text has been read when the fault shows. -/
def stop : DecodeError → Nat
  | tooLarge p digits => p + digits
  | e => e.position

/-- The words for a fault, without its offset. -/
def reason : DecodeError → Text
  | truncated _ => "truncated vlq continuation"
  | invalidUnit u _ => ("invalid base64 character '" : Text) ++ [u] ++ "'"
  | tooLarge _ _ => "vlq value exceeds 32 bits"
  | emptySegment _ => "empty segment"
  | fieldCount n _ => ("segment has " : Text) ++ Text.ofNat n ++ " fields"
  | negative field value _ => ("negative " : Text) ++ field.words ++ " " ++ Text.ofNumber value

/-- The words for a fault. -/
def message (e : DecodeError) : Text :=
  e.reason ++ " (at offset " ++ Text.ofNat e.position ++ ")"

end DecodeError

end Provenance
