import SmallLisp.Text.Blank
import SmallLisp.Text.Units
import SmallLisp.Table
import SmallLisp.Failure.Report
import SmallLisp.Value.Settle
import SmallLisp.Value.Equality
import SmallLisp.Value.Spelling
import SmallLisp.Environment.Store
import SmallLisp.Registry
import SmallLisp.Source.Read
import SmallLisp.Rules.Transformer
import SmallLisp.Derived
import SmallLisp.Eval.Form
import SmallLisp.Operation
import SmallLisp.Eval.Machine
import SmallLisp.Completion
import SmallLisp.Main
import SmallLisp.Proofs.Rules.RoundTrip
import SmallLisp.Proofs.Discipline.Machine
import SmallLisp.Proofs.Environment.Growth
import SmallLisp.Proofs.Environment.Confinement
import SmallLisp.Proofs.Source.Grammar
import SmallLisp.Proofs.Source.Lines
import SmallLisp.Proofs.Rules.Expansion
import SmallLisp.Proofs.Session.Reports
import SmallLisp.Proofs.Source.Joining
import SmallLisp.Proofs.Number.Spelling
import SmallLisp.Proofs.Number.Rounding
import SmallLisp.Proofs.Number.Packing
import SmallLisp.Proofs.Number.Nearest
import SmallLisp.Proofs.Number.Shortest
import SmallLisp.Proofs.Number.Positional
import SmallLisp.Proofs.Source.Escapes
import SmallLisp.Proofs.Source.ReadBack
import SmallLisp.Proofs.Run.Record
import SmallLisp.Proofs.Session.Composition
import SmallLisp.Proofs.Session.Loop
import SmallLisp.Proofs.Run.Tracing
import SmallLisp.Proofs.Run.CallTree
import SmallLisp.Proofs.Session.Respelling
import SmallLisp.Proofs.Environment.Sharing
import SmallLisp.Proofs.Run.Levels
import SmallLisp.Proofs.Rules.Instance
import SmallLisp.Proofs.Derived.Conditional
import SmallLisp.Proofs.Derived.Binding
import SmallLisp.Proofs.Rules.Acceptance
import SmallLisp.Proofs.Derived.LetRules
import SmallLisp.Proofs.Rules.Renaming
import SmallLisp.Proofs.Rules.Variables
import SmallLisp.Proofs.Rules.Shape
import SmallLisp.Proofs.Rules.Splicing
import SmallLisp.Proofs.Rules.Clauses
import SmallLisp.Proofs.Rules.Flat
import SmallLisp.Proofs.Source.Places
import SmallLisp.Proofs.Number.Equality
import SmallLisp.Proofs.Value.Equality
import SmallLisp.Proofs.Session.SingleLine
import SmallLisp.Proofs.Session.Lists
import SmallLisp.Proofs.Environment.Visibility
import SmallLisp.Proofs.Session.Registration
import SmallLisp.Proofs.Source.Progress
