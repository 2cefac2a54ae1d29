import Provenance.Assoc
import Provenance.Cache.Basic
import Provenance.Cache.Requests
import Provenance.Composition.Basic
import Provenance.Composition.Edit
import Provenance.Composition.Generate
import Provenance.Composition.Join
import Provenance.Composition.Output
import Provenance.Digest.ContentHash
import Provenance.Digest.Sha256
import Provenance.Json.Basic
import Provenance.Json.Parser
import Provenance.Json.Printer
import Provenance.Mapping.Basic
import Provenance.Mapping.Decode
import Provenance.Mapping.DecodeError
import Provenance.Mapping.Encode
import Provenance.Mapping.Identity
import Provenance.Mapping.Normal
import Provenance.Mapping.Trace
import Provenance.Notice
import Provenance.Number.Basic
import Provenance.Number.Binary
import Provenance.Number.Decimal
import Provenance.Proofs.Cache.History
import Provenance.Proofs.Composition.Canonical
import Provenance.Proofs.Composition.Contents
import Provenance.Proofs.Composition.Counted
import Provenance.Proofs.Composition.Edit
import Provenance.Proofs.Composition.Feedback
import Provenance.Proofs.Composition.File
import Provenance.Proofs.Composition.Generate
import Provenance.Proofs.Composition.Join
import Provenance.Proofs.Composition.Leaves
import Provenance.Proofs.Composition.Lines
import Provenance.Proofs.Composition.Nested
import Provenance.Proofs.Composition.Origin
import Provenance.Proofs.Composition.Output
import Provenance.Proofs.Composition.Regular
import Provenance.Proofs.Contents
import Provenance.Proofs.Digest.ContentHash
import Provenance.Proofs.Digest.Repair
import Provenance.Proofs.Except
import Provenance.Proofs.Json.Display
import Provenance.Proofs.Json.Parser
import Provenance.Proofs.Json.Printer
import Provenance.Proofs.Latest
import Provenance.Proofs.Lists
import Provenance.Proofs.Mapping.Accepted
import Provenance.Proofs.Mapping.Canonical
import Provenance.Proofs.Mapping.Decode
import Provenance.Proofs.Mapping.Encode
import Provenance.Proofs.Mapping.Faults
import Provenance.Proofs.Mapping.Grammar
import Provenance.Proofs.Mapping.Identity
import Provenance.Proofs.Mapping.Integral
import Provenance.Proofs.Mapping.LastInserted
import Provenance.Proofs.Mapping.Lookup
import Provenance.Proofs.Mapping.Natural
import Provenance.Proofs.Mapping.Normal
import Provenance.Proofs.Mapping.Place
import Provenance.Proofs.Mapping.Renumber
import Provenance.Proofs.Mapping.RoundTrip
import Provenance.Proofs.Mapping.Running
import Provenance.Proofs.Mapping.Scanner
import Provenance.Proofs.Mapping.Stable
import Provenance.Proofs.Mapping.Steps
import Provenance.Proofs.Mapping.Sums
import Provenance.Proofs.Search
import Provenance.Proofs.Session.Agree
import Provenance.Proofs.Session.Alike
import Provenance.Proofs.Session.Chain
import Provenance.Proofs.Session.Constructed
import Provenance.Proofs.Session.Decoded
import Provenance.Proofs.Session.Faithful
import Provenance.Proofs.Session.Feedback
import Provenance.Proofs.Session.Formed
import Provenance.Proofs.Session.Leaves
import Provenance.Proofs.Session.Lines
import Provenance.Proofs.Session.Maps
import Provenance.Proofs.Session.Meets
import Provenance.Proofs.Session.Peers
import Provenance.Proofs.Session.Placed
import Provenance.Proofs.Session.Plan
import Provenance.Proofs.Session.Regular
import Provenance.Proofs.Session.Render
import Provenance.Proofs.Session.Replacements
import Provenance.Proofs.Session.Run
import Provenance.Proofs.Session.Shown
import Provenance.Proofs.Session.Sizes
import Provenance.Proofs.Session.Streams
import Provenance.Proofs.Session.Texts
import Provenance.Proofs.Session.Walk
import Provenance.Proofs.Session.Writing
import Provenance.Proofs.SourceMap.Document
import Provenance.Proofs.SourceMap.RoundTrip
import Provenance.Proofs.Table
import Provenance.Proofs.Table.Family
import Provenance.Proofs.Table.Indexed
import Provenance.Proofs.Text.Decoding
import Provenance.Proofs.Text.Encoding
import Provenance.Proofs.Text.Excerpt
import Provenance.Proofs.Text.Joined
import Provenance.Proofs.Text.Lines
import Provenance.Proofs.Text.Position
import Provenance.Proofs.Text.Utf8
import Provenance.Proofs.Tree.Bare
import Provenance.Proofs.Tree.Chain
import Provenance.Proofs.Tree.Composition
import Provenance.Proofs.Tree.Constructed
import Provenance.Proofs.Tree.ContentHash
import Provenance.Proofs.Tree.Contents
import Provenance.Proofs.Tree.Feedback
import Provenance.Proofs.Tree.Limit
import Provenance.Proofs.Tree.Nested
import Provenance.Proofs.Tree.Origins
import Provenance.Proofs.Tree.Regular
import Provenance.Proofs.Tree.Rendering
import Provenance.Proofs.Tree.Replacements
import Provenance.Proofs.Tree.Splice
import Provenance.Proofs.Tree.Stepwise
import Provenance.Proofs.Tree.Wrappers
import Provenance.Proofs.Vlq.Faults
import Provenance.Proofs.Vlq.Numeral
import Provenance.Proofs.Vlq.Run
import Provenance.Proofs.Vlq.Words
import Provenance.Search
import Provenance.Session.Maps
import Provenance.Session.Outline
import Provenance.Session.Plan
import Provenance.Session.Render
import Provenance.Session.Run
import Provenance.Session.Store
import Provenance.Session.Walk
import Provenance.SourceMap.Basic
import Provenance.SourceMap.Document
import Provenance.Table.Basic
import Provenance.Table.Family
import Provenance.Text.Base64
import Provenance.Text.Basic
import Provenance.Text.Excerpt
import Provenance.Text.LineMemory
import Provenance.Text.Lines
import Provenance.Text.Position
import Provenance.Text.Remark
import Provenance.Text.Utf8
import Provenance.Tree.Basic
import Provenance.Tree.Check
import Provenance.Tree.Composition
import Provenance.Tree.ContentHash
import Provenance.Tree.Render
import Provenance.Tree.Replacement
import Provenance.Vlq.Encode
import Provenance.Vlq.Read
