import FlowTyping.Json.Read
import FlowTyping.Json.Write
import FlowTyping.Program.Document
import FlowTyping.Checker.Basic
import FlowTyping.Pattern.Read
import FlowTyping.Lowering.Lower
import FlowTyping.Flow.Transfer
import FlowTyping.Flow.BlockTrail
import FlowTyping.Settings
import FlowTyping.Flow.Analysis
import FlowTyping.Batch.Report
import FlowTyping.Command.Line
import FlowTyping.Main
import FlowTyping.Proofs.Lowering.Placement
import FlowTyping.Proofs.Lowering.Growth
import FlowTyping.Proofs.Lowering.Effects
import FlowTyping.Proofs.Lowering.Leaving
import FlowTyping.Proofs.Lowering.Routing
import FlowTyping.Proofs.Lowering.Statements
import FlowTyping.Proofs.Lowering.Compound
import FlowTyping.Proofs.Lowering.Protected
import FlowTyping.Proofs.Control.Behaviour
import FlowTyping.Proofs.Control.Walk
import FlowTyping.Proofs.FinalCopies
import FlowTyping.Proofs.Control.Expressions
import FlowTyping.Proofs.Control.Statements
import FlowTyping.Proofs.Control.Compaction
import FlowTyping.Proofs.Control.Paths
import FlowTyping.Proofs.Checker.Lattice
import FlowTyping.Proofs.Checker.Sound
import FlowTyping.Proofs.Flow.Stores
import FlowTyping.Proofs.Graph.Valid
import FlowTyping.Proofs.Flow.Evaluation
import FlowTyping.Proofs.Flow.Nodes
import FlowTyping.Proofs.Flow.Runs
import FlowTyping.Proofs.Flow.Solver
import FlowTyping.Proofs.Flow.Blocks
import FlowTyping.Proofs.Flow.Keys
import FlowTyping.Proofs.Flow.LeastFixpoint
import FlowTyping.Proofs.Waiting.Code
import FlowTyping.Proofs.Waiting.Stages
import FlowTyping.Proofs.Waiting.Steps
import FlowTyping.Proofs.Waiting.Ways
import FlowTyping.Proofs.Waiting.Expressions
import FlowTyping.Proofs.Waiting.Statements
import FlowTyping.Proofs.Waiting.Compound
import FlowTyping.Proofs.Waiting.Units
import FlowTyping.Proofs.Waiting.Graph
import FlowTyping.Proofs.Graph.Postorder
import FlowTyping.Proofs.Graph.Nesting
import FlowTyping.Proofs.Waiting.Order
import FlowTyping.Proofs.Flow.Sweep
import FlowTyping.Proofs.Flow.Errors
import FlowTyping.Proofs.Checker.Declared
import FlowTyping.Proofs.Checker.Acceptance
import FlowTyping.Proofs.Checker.Height
import FlowTyping.Proofs.Flow.PathRuns
import FlowTyping.Proofs.Flow.Writes
import FlowTyping.Proofs.Flow.Touched
import FlowTyping.Proofs.Flow.Climbing
import FlowTyping.Proofs.Flow.Levels
import FlowTyping.Proofs.Flow.Forgetting
import FlowTyping.Proofs.Flow.VisitBound
import FlowTyping.Proofs.Flow.Framework
import FlowTyping.Proofs.Flow.BlockTrails
import FlowTyping.Proofs.Flow.RoundBound
import FlowTyping.Proofs.Flow.Termination
import FlowTyping.Proofs.Flow.History
import FlowTyping.Proofs.Renaming.Building
import FlowTyping.Proofs.Renaming.Lowering
import FlowTyping.Proofs.Flow.Simulation
import FlowTyping.Proofs.Renaming.Stores
import FlowTyping.Proofs.Renaming.Transfer
import FlowTyping.Proofs.Renaming.Units
import FlowTyping.Proofs.Values.Locals
import FlowTyping.Proofs.Values.Units
import FlowTyping.Proofs.Values.Machine
import FlowTyping.Proofs.Values.Evaluation
import FlowTyping.Proofs.Values.Places
import FlowTyping.Proofs.Values.Soundness
import FlowTyping.Proofs.Drafting.Marks
import FlowTyping.Proofs.Drafting.Steps
import FlowTyping.Proofs.Drafting.Leaving
import FlowTyping.Proofs.Drafting.Expressions
import FlowTyping.Proofs.Drafting.Statements
import FlowTyping.Proofs.Drafting.Compound
import FlowTyping.Proofs.Drafting.Finished
import FlowTyping.Proofs.Drafting.Loops
import FlowTyping.Proofs.Drafting.Checks
import FlowTyping.Proofs.Source.Verdicts
import FlowTyping.Proofs.Source.Acceptance
import FlowTyping.Proofs.Reordering.Hierarchies
import FlowTyping.Proofs.Reordering.Checkers
import FlowTyping.Proofs.Reordering.Stores
import FlowTyping.Proofs.Reordering.Transfer
import FlowTyping.Proofs.Reordering.Units
import FlowTyping.Proofs.Bounds.Access
import FlowTyping.Proofs.Bounds.Graphs
import FlowTyping.Proofs.Bounds.Transfer
import FlowTyping.Proofs.Bounds.Solver
import FlowTyping.Proofs.Bounds.Analysis
import FlowTyping.Proofs.Bounds.Units
import FlowTyping.Proofs.Bounds.Building
import FlowTyping.Proofs.Bounds.Lowering
import FlowTyping.Proofs.Bounds.Statements
import FlowTyping.Proofs.Bounds.Closing
import FlowTyping.Proofs.Flow.FieldWrites
import FlowTyping.Proofs.Flow.HeapFacts
import FlowTyping.Proofs.Flow.Reached
import FlowTyping.Proofs.Flow.Detached
import FlowTyping.Proofs.Flow.Requirements
import FlowTyping.Proofs.Waiting.Histories
import FlowTyping.Proofs.Graph.Shape
import FlowTyping.Proofs.Waiting.Merges
import FlowTyping.Proofs.Flow.Operands
import FlowTyping.Proofs.Flow.Passes
import FlowTyping.Proofs.Json.Tokens
import FlowTyping.Proofs.Json.Documents
import FlowTyping.Proofs.Number.Shortest
import FlowTyping.Proofs.Json.Records
import FlowTyping.Proofs.Json.Faithful
import FlowTyping.Proofs.Number.Rounding
import FlowTyping.Proofs.Number.Rereading
import FlowTyping.Proofs.Program.Expressions
import FlowTyping.Proofs.Program.Statements
import FlowTyping.Proofs.Program.Rereading
import FlowTyping.Proofs.Conditions.NormalForm
import FlowTyping.Proofs.Conditions.Agreement
import FlowTyping.Proofs.Flow.CutOff
import FlowTyping.Proofs.Graph.Search
import FlowTyping.Proofs.Graph.Cycles
import FlowTyping.Proofs.Flow.Semilattices
import FlowTyping.Proofs.Flow.Parallel
import FlowTyping.Proofs.Flow.Sameness
import FlowTyping.Proofs.Graph.Admission
import FlowTyping.Proofs.Drafting.LoopFree
import FlowTyping.Proofs.Flow.SinglePass
import FlowTyping.Proofs.Checker.Chains
import FlowTyping.Proofs.Flow.Monotone
import FlowTyping.Proofs.Pattern.Continued
import FlowTyping.Proofs.Pattern.Readers
import FlowTyping.Proofs.Pattern.Matching
import FlowTyping.Proofs.Checker.Rules
import FlowTyping.Proofs.Checker.Laws
import FlowTyping.Proofs.Checker.Signatures
import FlowTyping.Proofs.Watched.Construction
import FlowTyping.Proofs.Watched.Lowering
import FlowTyping.Proofs.Control.Circles
import FlowTyping.Proofs.Control.Forwarding
