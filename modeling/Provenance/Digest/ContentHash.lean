/-
# Content hashes

A content hash is the SHA-256 hash of a list of texts, its fields.  Each field is preceded by its
length, so that moving units from one field to the next changes what is hashed.

The main facts:

* `stream_append` : the bytes hashed for two lists of fields are joined end to end;
* `ofFields_eq_of_stream_eq` : equal bytes give equal content hashes.
-/
import Provenance.Digest.Sha256
import Provenance.Text.Utf8

namespace Provenance

/-- A hash of content, written as text. -/
abbrev ContentHash := Text

namespace ContentHash

/-- The bytes hashed for one field: its length in units, a colon, and the field. -/
def fieldBytes (field : Text) : List UInt8 :=
  Text.utf8 (Text.ofNat field.length ++ ":") ++ field.utf8

/-- The bytes hashed for a list of fields. -/
def stream (fields : List Text) : List UInt8 := fields.flatMap fieldBytes

/-- The content hash of a stream of bytes. -/
def ofStream (bytes : List UInt8) : ContentHash := "sha256:" ++ hex (Sha256.digest bytes)

/-- The content hash of a list of fields. -/
def ofFields (fields : List Text) : ContentHash := ofStream (stream fields)

/-- The bytes hashed for two lists of fields are joined end to end. -/
theorem stream_append (fs gs : List Text) : stream (fs ++ gs) = stream fs ++ stream gs := by
  unfold stream
  exact List.flatMap_append

/-- Equal bytes give equal content hashes. -/
theorem ofFields_eq_of_stream_eq {fs gs : List Text} (h : stream fs = stream gs) :
    ofFields fs = ofFields gs := by
  unfold ofFields
  rw [h]

end ContentHash

end Provenance
