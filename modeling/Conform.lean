import Conform.Acceptance
import Conform.Acceptance.Basic
import Conform.Compiled
import Conform.Compiled.Walk
import Conform.Error
import Conform.Error.Reason
import Conform.Host
import Conform.Json.Basic
import Conform.Json.Numeral
import Conform.Json.Parser
import Conform.Json.Printer
import Conform.Number.Binary64
import Conform.Number.Notation
import Conform.Number.Numeral
import Conform.Number.Rounding
import Conform.Number.Shortest
import Conform.Options
import Conform.Pairs
import Conform.Proofs.Acceptance.Accountability
import Conform.Proofs.Acceptance.Alternatives
import Conform.Proofs.Acceptance.Closure
import Conform.Proofs.Acceptance.Concealment
import Conform.Proofs.Acceptance.Conformance
import Conform.Proofs.Acceptance.Deprecation
import Conform.Proofs.Acceptance.Depth
import Conform.Proofs.Acceptance.Descent
import Conform.Proofs.Acceptance.Disclosure
import Conform.Proofs.Acceptance.EmptySequence
import Conform.Proofs.Acceptance.Exactness
import Conform.Proofs.Acceptance.Idempotence
import Conform.Proofs.Acceptance.Indistinguishability
import Conform.Proofs.Acceptance.Invariance
import Conform.Proofs.Acceptance.KeyDisclosure
import Conform.Proofs.Acceptance.Location
import Conform.Proofs.Acceptance.Membership
import Conform.Proofs.Acceptance.MetaAcceptance
import Conform.Proofs.Acceptance.MetaDepth
import Conform.Proofs.Acceptance.MetaStaticness
import Conform.Proofs.Acceptance.Missing
import Conform.Proofs.Acceptance.NestedKeys
import Conform.Proofs.Acceptance.Order
import Conform.Proofs.Acceptance.Origin
import Conform.Proofs.Acceptance.Pointwise
import Conform.Proofs.Acceptance.Redaction
import Conform.Proofs.Acceptance.Rejection
import Conform.Proofs.Acceptance.Renaming
import Conform.Proofs.Acceptance.Report
import Conform.Proofs.Acceptance.Settlement
import Conform.Proofs.Acceptance.Silence
import Conform.Proofs.Acceptance.Step
import Conform.Proofs.Acceptance.Supply
import Conform.Proofs.Acceptance.Termination
import Conform.Proofs.Acceptance.Uniqueness
import Conform.Proofs.Compiled.Agreement
import Conform.Proofs.Compiled.CallArity
import Conform.Proofs.Compiled.DataCheck
import Conform.Proofs.Compiled.DataForm
import Conform.Proofs.Compiled.Documents
import Conform.Proofs.Compiled.Formation
import Conform.Proofs.Compiled.Injection
import Conform.Proofs.Compiled.Lawfulness
import Conform.Proofs.Compiled.MetaGrammar
import Conform.Proofs.Compiled.Permutation
import Conform.Proofs.Compiled.Placement
import Conform.Proofs.Compiled.Recognition
import Conform.Proofs.Compiled.Reencoding
import Conform.Proofs.Compiled.Search
import Conform.Proofs.Compiled.Staticness
import Conform.Proofs.Compiled.Termination
import Conform.Proofs.Error.Amendment
import Conform.Proofs.Json.Fields
import Conform.Proofs.Pairs.Storage
import Conform.Proofs.Run.Accountability
import Conform.Proofs.Run.Deprecations
import Conform.Proofs.Run.Depth
import Conform.Proofs.Run.Faults
import Conform.Proofs.Run.Invariant
import Conform.Proofs.Run.Parallel
import Conform.Proofs.Run.Result
import Conform.Proofs.Run.Verdict
import Conform.Proofs.Schema.Bodiless
import Conform.Proofs.Schema.Comparable
import Conform.Proofs.Schema.Declared
import Conform.Proofs.Schema.Encoding
import Conform.Proofs.Schema.Grammar
import Conform.Proofs.Schema.Immediate
import Conform.Proofs.Schema.Inside
import Conform.Proofs.Schema.Levels
import Conform.Proofs.Schema.MetaLevels
import Conform.Proofs.Schema.Parsing
import Conform.Proofs.Schema.Reading
import Conform.Proofs.Schema.Renewal
import Conform.Proofs.Schema.Revision
import Conform.Proofs.Schema.RoundTrip
import Conform.Proofs.Text.Items
import Conform.Proofs.Text.Pieces
import Conform.Proofs.Text.Scrubbing
import Conform.Proofs.Value.Canonical
import Conform.Proofs.Value.Loading
import Conform.Proofs.Value.Nesting
import Conform.Proofs.Value.Reflexivity
import Conform.Run
import Conform.Schema.Basic
import Conform.Schema.DataForm
import Conform.Schema.Dump
import Conform.Schema.Equality
import Conform.Schema.Meta
import Conform.Schema.Name
import Conform.Schema.Reader
import Conform.Text.Alphanumeric
import Conform.Text.Bullet
import Conform.Text.Printable
import Conform.Text.Quoted
import Conform.Text.Ranges
import Conform.Text.Scrub
import Conform.Text.Structure
import Conform.Value.Basic
import Conform.Value.Document
import Conform.Value.Dump
import Conform.Value.Equality
import Conform.Value.Equivalence
import Conform.Value.Function
import Conform.Value.Inspect
import Conform.Value.Interchange
