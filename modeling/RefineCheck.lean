import RefineCheck.Checker
import RefineCheck.Config
import RefineCheck.Config.Document
import RefineCheck.Config.Scalar
import RefineCheck.Config.Storage
import RefineCheck.Domain
import RefineCheck.Fault
import RefineCheck.Kleene
import RefineCheck.Labelling
import RefineCheck.Labelling.Culprit
import RefineCheck.Labelling.Formula
import RefineCheck.Labelling.History
import RefineCheck.Log
import RefineCheck.Mark
import RefineCheck.Memory
import RefineCheck.Memory.Mark
import RefineCheck.Operator
import RefineCheck.Precision
import RefineCheck.Property
import RefineCheck.Property.Atomic
import RefineCheck.Property.Normal
import RefineCheck.Property.Parser
import RefineCheck.Property.Token
import RefineCheck.Record
import RefineCheck.Record.Mark
import RefineCheck.Reduced
import RefineCheck.Runs
import RefineCheck.Service
import RefineCheck.Session
import RefineCheck.Sized
import RefineCheck.Space
import RefineCheck.Space.Dot
import RefineCheck.Space.Walk
import RefineCheck.SplitRange
import RefineCheck.SplitRange.Operations
import RefineCheck.State
import RefineCheck.Ternary
import RefineCheck.Ternary.Operations
import RefineCheck.Text.Columns
import RefineCheck.Text.Decimal
import RefineCheck.Text.Numeral
import RefineCheck.Text.Printable
import RefineCheck.Text.Quoted
import RefineCheck.TransitionSystem
import RefineCheck.TransitionSystem.Expression
import RefineCheck.Verifier
import RefineCheck.Verifier.Generation
import RefineCheck.Verifier.Refinement
import RefineCheck.Verifier.Verdict
import RefineCheck.Word
import RefineCheck.Proofs.Ternary.Soundness
import RefineCheck.Proofs.SplitRange.Soundness
import RefineCheck.Proofs.Ternary.Neighbours
import RefineCheck.Proofs.Reduced.Reduction
import RefineCheck.Proofs.Reduced.Soundness
import RefineCheck.Proofs.Domain
import RefineCheck.Proofs.Checker.Fresh
import RefineCheck.Proofs.Checker.Incremental
import RefineCheck.Proofs.Concrete
import RefineCheck.Proofs.Runs.Total
import RefineCheck.Proofs.Semantics.Path
import RefineCheck.Proofs.Checker.Culprit
import RefineCheck.Proofs.Checker.Existential
import RefineCheck.Proofs.Semantics.Canonical
import RefineCheck.Proofs.Mark.Counter
import RefineCheck.Proofs.Verifier.Soundness
import RefineCheck.Proofs.Mark.Bounds
import RefineCheck.Proofs.State.Finite
import RefineCheck.Proofs.Fault
import RefineCheck.Proofs.Verifier.Settled
import RefineCheck.Proofs.Property.Reparsed
import RefineCheck.Proofs.Verifier.Termination
import RefineCheck.Proofs.Reduced.Stable
import RefineCheck.Proofs.Runs.Canonical
import RefineCheck.Proofs.Runs.Pointwise
import RefineCheck.Proofs.State.Key
import RefineCheck.Proofs.Space.Representation
import RefineCheck.Proofs.Property.Language
import RefineCheck.Proofs.Domain.Monotone
import RefineCheck.Proofs.Verifier.Monotone
import RefineCheck.Proofs.Mark.Partition
import RefineCheck.Proofs.Labelling.Blank
import RefineCheck.Proofs.Verifier.Alike
import RefineCheck.Proofs.Session.Lock
import RefineCheck.Proofs.Session.Protocol
import RefineCheck.Proofs.Session.Sequential
import RefineCheck.Proofs.Verifier.Restart
import RefineCheck.Proofs.Domain.Conversion
import RefineCheck.Proofs.Property.Exact
import RefineCheck.Proofs.Property.Literal
import RefineCheck.Proofs.Ternary.Unknown
import RefineCheck.Proofs.Mark.Backward
import RefineCheck.Proofs.Mark.Shift
import RefineCheck.Proofs.Memory.Soundness
import RefineCheck.Proofs.Memory.Backward
import RefineCheck.Proofs.Mark.Decay
import RefineCheck.Proofs.Mark.Refinement
import RefineCheck.Proofs.Verifier.Panic
import RefineCheck.Proofs.Space.Distance
import RefineCheck.Proofs.Space.Search
import RefineCheck.Proofs.Property.Polarity
import RefineCheck.Proofs.Property.Defect
import RefineCheck.Proofs.Checker.Validation
import RefineCheck.Proofs.Word.Stored
import RefineCheck.Proofs.Word.Arithmetic
import RefineCheck.Proofs.Labelling.Survival
import RefineCheck.Proofs.Ternary.Enumeration
