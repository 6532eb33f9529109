import MovePlan.Analysis.LastUse
import MovePlan.Analysis.MoveState
import MovePlan.Analysis.Ownership
import MovePlan.CommandLine.FileName
import MovePlan.CommandLine.Integer
import MovePlan.CommandLine.Request
import MovePlan.CommandLine.Response
import MovePlan.Diagnostic
import MovePlan.Flow.Builder
import MovePlan.Flow.Dominator
import MovePlan.Flow.Fault
import MovePlan.Flow.Fixpoint
import MovePlan.Flow.Function
import MovePlan.Flow.Graph
import MovePlan.Flow.Script
import MovePlan.Flow.Site
import MovePlan.Flow.Validation
import MovePlan.Json
import MovePlan.Lowering.Code
import MovePlan.Lowering.Skeleton
import MovePlan.Lowering.Text
import MovePlan.Main
import MovePlan.Numeral
import MovePlan.Order
import MovePlan.OrderedMap
import MovePlan.Pieces
import MovePlan.Plan.Analyze
import MovePlan.Plan.Assignment
import MovePlan.Plan.Basic
import MovePlan.Plan.Decision
import MovePlan.Plan.Destruction
import MovePlan.Plan.Fallback
import MovePlan.Plan.Listing
import MovePlan.Plan.Report
import MovePlan.Plan.UseAfterMove
import MovePlan.Run
import MovePlan.Settings
import MovePlan.Span
import MovePlan.Text.Declaration
import MovePlan.Text.Expected
import MovePlan.Text.Program
import MovePlan.Text.Reader
import MovePlan.Text.Token
import MovePlan.Types.Model
import MovePlan.Types.Path
import MovePlan.Types.Standard
import MovePlan.Types.Table
import MovePlan.Proofs.Flow.Fixpoint
import MovePlan.Proofs.Flow.Walk
import MovePlan.Proofs.Analysis.LastUse
import MovePlan.Proofs.Analysis.MoveState
import MovePlan.Proofs.Flow.Built
import MovePlan.Proofs.Flow.Dominator
import MovePlan.Proofs.Flow.Operations
import MovePlan.Proofs.Flow.Tidy
import MovePlan.Proofs.Plan.Destruction
import MovePlan.Proofs.Plan.Flags
import MovePlan.Proofs.Plan.Disposal
import MovePlan.Proofs.Plan.Storage
import MovePlan.Proofs.Plan.Fallback
import MovePlan.Proofs.Plan.Total
import MovePlan.Proofs.Lowering.Blocks
import MovePlan.Proofs.Lowering.Prologue
import MovePlan.Proofs.Lowering.Simulation
import MovePlan.Proofs.Types.Described
import MovePlan.Proofs.Plan.Clean
import MovePlan.Proofs.Plan.Accepted
import MovePlan.Proofs.Lowering.Program
import MovePlan.Proofs.Lowering.EndOrder
import MovePlan.Proofs.Plan.Settings
import MovePlan.Proofs.Plan.Numbering
import MovePlan.Proofs.Flow.Bracketed
import MovePlan.Proofs.Text.Structure
import MovePlan.Proofs.Plan.GuardedWrite
import MovePlan.Proofs.Text.Demands
import MovePlan.Proofs.Text.Typed
import MovePlan.Proofs.Plan.Accumulated
import MovePlan.Proofs.Text.Layout
import MovePlan.Proofs.Text.Grammar
import MovePlan.Proofs.Text.Parsed
import MovePlan.Proofs.Text.Denotation
import MovePlan.Proofs.Text.Listed
import MovePlan.Proofs.Plan.Partial
import MovePlan.Proofs.Plan.Overwritten
import MovePlan.Proofs.Types.Owed
import MovePlan.Proofs.Types.Inside
import MovePlan.Proofs.Plan.Agreement
import MovePlan.Proofs.Plan.Entitled
import MovePlan.Proofs.Plan.Reported
import MovePlan.Proofs.Text.Denoted
import MovePlan.Proofs.Text.Spans
import MovePlan.Proofs.Text.RoundTrip
import MovePlan.Proofs.Flow.Dominance
import MovePlan.Proofs.Flow.PostOrder
import MovePlan.Proofs.Analysis.Rounds
import MovePlan.Proofs.Types.Paths
