import SelfTypes.Identifier
import SelfTypes.Term.Basic
import SelfTypes.Term.Scope
import SelfTypes.Term.Index
import SelfTypes.Term.Location
import SelfTypes.Term.Literal
import SelfTypes.Term.Draft
import SelfTypes.Term.Printer
import SelfTypes.Text.Escape
import SelfTypes.Text.Width
import SelfTypes.Layout.Doc
import SelfTypes.Primitive
import SelfTypes.Code.Basic
import SelfTypes.Code.Printer
import SelfTypes.Table
import SelfTypes.Context
import SelfTypes.Dependency
import SelfTypes.Trace
import SelfTypes.Kernel.Basic
import SelfTypes.Kernel.Reduction
import SelfTypes.Kernel.Conversion
import SelfTypes.Kernel.Classification
import SelfTypes.Elaboration.Failure
import SelfTypes.Elaboration.Basic
import SelfTypes.Settings.Basic
import SelfTypes.Settings.Reader
import SelfTypes.Toml.Value
import SelfTypes.Toml.Number
import SelfTypes.Toml.DateTime
import SelfTypes.Toml.Quoted
import SelfTypes.Toml.Document
import SelfTypes.Build
import SelfTypes.Prelude
import SelfTypes.Proofs.Computation
import SelfTypes.Proofs.Kernel.Congruence
import SelfTypes.Proofs.Elaboration.Congruence
import SelfTypes.Proofs.Depth
import SelfTypes.Proofs.Progress
import SelfTypes.Proofs.Fuel
import SelfTypes.Proofs.Term.FreeVariables
import SelfTypes.Proofs.Kernel.WeakHead
import SelfTypes.Proofs.Kernel.Freshness
import SelfTypes.Proofs.Kernel.Bisimulation
import SelfTypes.Proofs.Kernel.Equality
import SelfTypes.Proofs.Term.Closed
import SelfTypes.Proofs.Term.Measure
import SelfTypes.Proofs.Kernel.Termination
import SelfTypes.Proofs.Elaboration.Termination
import SelfTypes.Proofs.Trace
import SelfTypes.Proofs.Build.Job
import SelfTypes.Proofs.Dependency
import SelfTypes.Proofs.Build.Sequential
import SelfTypes.Proofs.Build.Termination
import SelfTypes.Proofs.Elaboration.Derivation
import SelfTypes.Proofs.Dependency.Order
import SelfTypes.Proofs.Term.Content
import SelfTypes.Proofs.Elaboration.References
import SelfTypes.Proofs.Build.Closure
import SelfTypes.Proofs.Elaboration.Scope
import SelfTypes.Proofs.Erasure.Basic
import SelfTypes.Proofs.Erasure.Elaboration
import SelfTypes.Proofs.Term.Substitution
import SelfTypes.Proofs.Kernel.HeadReduction
import SelfTypes.Proofs.Kernel.Convertibility
import SelfTypes.Proofs.Kernel.Substitutivity
import SelfTypes.Proofs.Code.Evaluation
import SelfTypes.Proofs.Term.Naming
import SelfTypes.Proofs.Elaboration.Situated
import SelfTypes.Proofs.Evaluation.Realizability
import SelfTypes.Proofs.Evaluation.Valuation
import SelfTypes.Proofs.Evaluation.Fundamental
import SelfTypes.Proofs.Build.Evaluation
import SelfTypes.Proofs.Term.Literal
import SelfTypes.Proofs.Dependency.Precedence
import SelfTypes.Proofs.Erasure.FreeNames
import SelfTypes.Proofs.Term.Alike
import SelfTypes.Proofs.Kernel.Alike
import SelfTypes.Proofs.Elaboration.Alike
import SelfTypes.Proofs.Code.Alpha
import SelfTypes.Proofs.Erasure.Alpha
import SelfTypes.Proofs.Term.Copy
import SelfTypes.Proofs.Kernel.Lockstep
import SelfTypes.Proofs.Elaboration.Lockstep
import SelfTypes.Proofs.Elaboration.Locality
import SelfTypes.Proofs.Dependency.Agreement
import SelfTypes.Proofs.Build.Locality
import SelfTypes.Proofs.Elaboration.Subsumption
import SelfTypes.Proofs.Build.Subsumption
import SelfTypes.Proofs.Kernel.Location
import SelfTypes.Proofs.Elaboration.Location
import SelfTypes.Proofs.Elaboration.History
import SelfTypes.Proofs.Term.Location
import SelfTypes.Proofs.Elaboration.Report
import SelfTypes.Proofs.Build.Location
import SelfTypes.Proofs.Build.Together
import SelfTypes.Proofs.Elaboration.Expectation
import SelfTypes.Proofs.Elaboration.TypeScope
import SelfTypes.Proofs.Term.Path
import SelfTypes.Proofs.Elaboration.Overlooked
import SelfTypes.Proofs.Build.Undefined
import SelfTypes.Proofs.Kernel.HeadStep
import SelfTypes.Proofs.Kernel.Interchange
import SelfTypes.Proofs.Elaboration.Retyping
import SelfTypes.Proofs.Elaboration.Interchange
import SelfTypes.Proofs.Elaboration.Coherence
import SelfTypes.Proofs.Term.Closing
import SelfTypes.Proofs.Kernel.HeadSubstitution
import SelfTypes.Proofs.Kernel.Exhaustion
import SelfTypes.Proofs.Kernel.HeadCopy
import SelfTypes.Proofs.Kernel.PlainEquality
import SelfTypes.Proofs.Kernel.Symmetry
import SelfTypes.Proofs.Kernel.Outline
import SelfTypes.Proofs.Kernel.Classification
import SelfTypes.Proofs.Dependency.Reachability
import SelfTypes.Proofs.Kernel.Resemblance
import SelfTypes.Proofs.Elaboration.Judgement
import SelfTypes.Proofs.Elaboration.Inlining
import SelfTypes.Proofs.Elaboration.Agreement
import SelfTypes.Proofs.Elaboration.Transparency
import SelfTypes.Proofs.Elaboration.OpenCalls
import SelfTypes.Proofs.Term.Draft
import SelfTypes.Proofs.Elaboration.Context
import SelfTypes.Proofs.Term.Opening
import SelfTypes.Proofs.Toml.Plain
import SelfTypes.Proofs.Settings
import SelfTypes.Proofs.Text.Escape
import SelfTypes.Proofs.Layout.Spacing
import SelfTypes.Proofs.Layout.Width
import SelfTypes.Proofs.Layout.Phrase
import SelfTypes.Proofs.Layout.Printing
import SelfTypes.Proofs.Code.Script
import SelfTypes.Proofs.Code.Scanning
import SelfTypes.Proofs.Code.Unambiguous
import SelfTypes.Proofs.Term.Unlocated
import SelfTypes.Proofs.Identifier
