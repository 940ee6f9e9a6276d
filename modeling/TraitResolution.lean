import TraitResolution.Catalogue.Basic
import TraitResolution.Catalogue.Compilation
import TraitResolution.Catalogue.Document
import TraitResolution.Catalogue.Expectation
import TraitResolution.Catalogue.Report
import TraitResolution.Catalogue.Source
import TraitResolution.Catalogue.Validation
import TraitResolution.Catalogue.Version
import TraitResolution.Coherence
import TraitResolution.Command.Basic
import TraitResolution.Command.Fields
import TraitResolution.Command.Files
import TraitResolution.Command.Options
import TraitResolution.Engine
import TraitResolution.Env
import TraitResolution.Event
import TraitResolution.Log.Logger
import TraitResolution.Log.Record
import TraitResolution.Log.Trace
import TraitResolution.Main
import TraitResolution.Malformed
import TraitResolution.MethodCall
import TraitResolution.Number.Decimal
import TraitResolution.Number.Integer
import TraitResolution.Number.Shortest
import TraitResolution.Program
import TraitResolution.Proofs.Accounting
import TraitResolution.Proofs.Acyclicity
import TraitResolution.Proofs.Application
import TraitResolution.Proofs.Bindings
import TraitResolution.Proofs.CallInference
import TraitResolution.Proofs.CallProviders
import TraitResolution.Proofs.CallSafety
import TraitResolution.Proofs.CallScope
import TraitResolution.Proofs.CallSearch
import TraitResolution.Proofs.CallTyping
import TraitResolution.Proofs.Calls
import TraitResolution.Proofs.CatalogueSafety
import TraitResolution.Proofs.Checking
import TraitResolution.Proofs.Collections
import TraitResolution.Proofs.Completeness
import TraitResolution.Proofs.Confinement
import TraitResolution.Proofs.Consistency
import TraitResolution.Proofs.DeclarationOrder
import TraitResolution.Proofs.Derivation
import TraitResolution.Proofs.Endlessness
import TraitResolution.Proofs.Expressions
import TraitResolution.Proofs.Grammar
import TraitResolution.Proofs.History
import TraitResolution.Proofs.ImplOrder
import TraitResolution.Proofs.Independence
import TraitResolution.Proofs.Interleaving
import TraitResolution.Proofs.InternalChecks
import TraitResolution.Proofs.Interruption
import TraitResolution.Proofs.Invariants
import TraitResolution.Proofs.Limits
import TraitResolution.Proofs.Lockstep
import TraitResolution.Proofs.Naming
import TraitResolution.Proofs.ObligationIds
import TraitResolution.Proofs.Overlap
import TraitResolution.Proofs.ParserSteps
import TraitResolution.Proofs.Reachability
import TraitResolution.Proofs.ReachableResolution
import TraitResolution.Proofs.Recursion
import TraitResolution.Proofs.Replacement
import TraitResolution.Proofs.Replay
import TraitResolution.Proofs.RoundTrip
import TraitResolution.Proofs.Runs
import TraitResolution.Proofs.Safety
import TraitResolution.Proofs.Settling
import TraitResolution.Proofs.Simulation
import TraitResolution.Proofs.Soundness
import TraitResolution.Proofs.Speculation
import TraitResolution.Proofs.Spelling
import TraitResolution.Proofs.Strands
import TraitResolution.Proofs.Substitution
import TraitResolution.Proofs.Termination
import TraitResolution.Proofs.Unification
import TraitResolution.Proofs.UnificationLaws
import TraitResolution.Proofs.Validity
import TraitResolution.Proofs.WellFormed
import TraitResolution.Proofs.Worklist
import TraitResolution.Receiver
import TraitResolution.Resolution
import TraitResolution.Session.Run
import TraitResolution.Session.Step
import TraitResolution.Solver
import TraitResolution.Text.Basic
import TraitResolution.Text.Digit
import TraitResolution.Text.Letter
import TraitResolution.Text.Printable
import TraitResolution.Text.Quoted
import TraitResolution.Text.Ranges
import TraitResolution.Ty
import TraitResolution.TypeExpr.Parser
import TraitResolution.TypeExpr.Token
import TraitResolution.Unification
import TraitResolution.Yaml.Base64
import TraitResolution.Yaml.BlockScalar
import TraitResolution.Yaml.Comment
import TraitResolution.Yaml.Content
import TraitResolution.Yaml.Cursor
import TraitResolution.Yaml.Fault
import TraitResolution.Yaml.Gap
import TraitResolution.Yaml.Misfit
import TraitResolution.Yaml.Node
import TraitResolution.Yaml.PlainScalar
import TraitResolution.Yaml.Property
import TraitResolution.Yaml.QuotedScalar
import TraitResolution.Yaml.Record
import TraitResolution.Yaml.Scalar
import TraitResolution.Yaml.Shape
import TraitResolution.Yaml.Timestamp
import TraitResolution.Yaml.Token
import TraitResolution.Yaml.Tokens
import TraitResolution.Yaml.Tree
import TraitResolution.Proofs.Documents
import TraitResolution.Proofs.Acceptance
import TraitResolution.Proofs.SharedUnknowns
import TraitResolution.Proofs.ParserFailures
import TraitResolution.Proofs.FirstOffender
import TraitResolution.Proofs.FreeVariables
