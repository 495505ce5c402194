import HigherRank.Context.Access
import HigherRank.Context.Apply
import HigherRank.Context.Basic
import HigherRank.Context.Extension
import HigherRank.Context.Hole
import HigherRank.Context.Partial
import HigherRank.Context.Renaming
import HigherRank.Context.Scope
import HigherRank.Context.WellFormed
import HigherRank.Entry
import HigherRank.Logging.Logger
import HigherRank.Logging.Template
import HigherRank.Logging.Trace
import HigherRank.Name
import HigherRank.Proofs.Application
import HigherRank.Proofs.Collisions
import HigherRank.Proofs.Completeness
import HigherRank.Proofs.Completion
import HigherRank.Proofs.DeclarativeSubtyping
import HigherRank.Proofs.Derivation
import HigherRank.Proofs.Extension
import HigherRank.Proofs.FreshNames
import HigherRank.Proofs.Growth
import HigherRank.Proofs.Inertness
import HigherRank.Proofs.Instantiation
import HigherRank.Proofs.Measures
import HigherRank.Proofs.Nameless
import HigherRank.Proofs.Preservation
import HigherRank.Proofs.Progress
import HigherRank.Proofs.Refusals
import HigherRank.Proofs.Renaming
import HigherRank.Proofs.Resolution
import HigherRank.Proofs.Rules
import HigherRank.Proofs.Safety
import HigherRank.Proofs.Soundness
import HigherRank.Proofs.Substitution
import HigherRank.Proofs.Termination
import HigherRank.Proofs.Valuation
import HigherRank.Proofs.WellFormedness
import HigherRank.Report
import HigherRank.Session
import HigherRank.Subtyping.Declarative
import HigherRank.Subtyping.Failure
import HigherRank.Subtyping.Judgment
import HigherRank.Subtyping.Traced
import HigherRank.Term
import HigherRank.Text.Digits
import HigherRank.Text.Printable
import HigherRank.Text.Quoted
import HigherRank.Ty.Basic
import HigherRank.Ty.Nameless
import HigherRank.Ty.Printer
import HigherRank.Ty.Subst
import HigherRank.Usage
import HigherRank.Value
import HigherRank.Version
import HigherRank.Proofs.NameIndependence
import HigherRank.Proofs.Precedence
import HigherRank.Proofs.Equivalence
import HigherRank.Proofs.QueryOrder
import HigherRank.Proofs.Transitivity
import HigherRank.Proofs.Entailment
import HigherRank.Proofs.Symmetry
import HigherRank.Proofs.TraceAdequacy
import HigherRank.Proofs.Transcript
import HigherRank.Proofs.Weakening
import HigherRank.Proofs.Readability
import HigherRank.Proofs.Literals
import HigherRank.Proofs.Display
import HigherRank.Proofs.Holes
import HigherRank.Proofs.Cells
import HigherRank.Proofs.Sequences
import HigherRank.Proofs.Scoping
import HigherRank.Proofs.Slots
