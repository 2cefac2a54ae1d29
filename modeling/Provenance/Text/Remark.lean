/-
# Logging places of a text

A message about a place of a text is logged with the excerpt around the place.  Traces are logged
only while tracing is on.
-/
import Provenance.Text.Excerpt

namespace Provenance

/-- A request to log. -/
inductive RemarkRequest where
  | setTracing (on : Bool)
  /-- A message about one or two offsets of the text. -/
  | log (pos : Number) (second : Option Number) (message : Text)
  /-- A message that is logged only while tracing is on. -/
  | trace (pos : Number) (second : Option Number) (message : Text)

/-- What a request logs, and why it stops if the excerpt cannot be shown. -/
structure RemarkOutcome where
  lines : List Text
  error : Option Excerpt.TooLong := none
  deriving DecidableEq, Repr

/-- A message followed by the excerpt around its place. -/
def remarkOn (t : Text) (pos : Number) (second : Option Number) (message : Text) : RemarkOutcome :=
  match (Excerpt.of t pos second).context? with
  | .ok (heading, carets) => ⟨[message, heading, carets], none⟩
  | .error e => ⟨[message], some e⟩

/-- The outcome of a request about a text, and whether tracing is on after it. -/
def RemarkRequest.run (t : Text) (tracing : Bool) : RemarkRequest → RemarkOutcome × Bool
  | setTracing on => (⟨[], none⟩, on)
  | log pos second message => (remarkOn t pos second message, tracing)
  | trace pos second message =>
    (if tracing then remarkOn t pos second message else ⟨[], none⟩, tracing)

end Provenance
