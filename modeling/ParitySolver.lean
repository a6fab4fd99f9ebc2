import ParitySolver.BitSet
import ParitySolver.CommandLine
import ParitySolver.CommandLine.Arguments
import ParitySolver.Config
import ParitySolver.Constraint
import ParitySolver.Decimal.Plain
import ParitySolver.Decimal.Reading
import ParitySolver.Decimal.Shortest
import ParitySolver.DecisionStack
import ParitySolver.Engine
import ParitySolver.Engine.Resolution
import ParitySolver.Event
import ParitySolver.Fact.Grammar
import ParitySolver.Fact.Reader
import ParitySolver.Fault
import ParitySolver.Host
import ParitySolver.IndexSet
import ParitySolver.Literal
import ParitySolver.Main
import ParitySolver.Matrix
import ParitySolver.Note
import ParitySolver.Pairing
import ParitySolver.Proofs.Completeness
import ParitySolver.Proofs.DecisionStack
import ParitySolver.Proofs.Engine.Calls
import ParitySolver.Proofs.Engine.Check
import ParitySolver.Proofs.Engine.History
import ParitySolver.Proofs.Engine.Replay
import ParitySolver.Proofs.Engine.Soundness
import ParitySolver.Proofs.Facts
import ParitySolver.Proofs.Matrix.Reduced
import ParitySolver.Proofs.Matrix.Represents
import ParitySolver.Proofs.Meaning
import ParitySolver.Proofs.Outcome
import ParitySolver.Proofs.Pairing
import ParitySolver.Proofs.Reason
import ParitySolver.Proofs.Resolution
import ParitySolver.Proofs.Search
import ParitySolver.Proofs.StoreIndex
import ParitySolver.Proofs.Sum
import ParitySolver.Proofs.Theory
import ParitySolver.Proofs.Theory.Counting
import ParitySolver.Proofs.Theory.Incremental
import ParitySolver.Proofs.Theory.Watching
import ParitySolver.Proofs.Trail
import ParitySolver.Search
import ParitySolver.Session
import ParitySolver.Store
import ParitySolver.Strategy
import ParitySolver.Table
import ParitySolver.Theory
import ParitySolver.Theory.Batch
import ParitySolver.Theory.Context
import ParitySolver.Theory.Counting
import ParitySolver.Theory.Incremental
import ParitySolver.Theory.Watching
import ParitySolver.Trail
import ParitySolver.Verdict
import ParitySolver.WhiteSpace
import ParitySolver.Proofs.Matrix.Elimination
import ParitySolver.Proofs.Theory.WatchLists
import ParitySolver.Proofs.Theory.Progress
import ParitySolver.Proofs.Engine.Progress
import ParitySolver.Proofs.Matrix.Kernel
import ParitySolver.Proofs.Theory.Agreement
import ParitySolver.Proofs.Drain
import ParitySolver.Proofs.Lockstep
import ParitySolver.Proofs.Engine.Vigilance
import ParitySolver.Proofs.Termination
import ParitySolver.Proofs.Turns
import ParitySolver.Proofs.Stability
import ParitySolver.Proofs.Fixpoints
import ParitySolver.Proofs.BacktrackFree
import ParitySolver.Proofs.SearchEffort
import ParitySolver.Proofs.SearchTree
import ParitySolver.Proofs.Engine.Twins
import ParitySolver.Proofs.Theory.NaiveCounting
import ParitySolver.Proofs.Confluence
import ParitySolver.Proofs.Engine.Log
import ParitySolver.Proofs.Fact.Grammar
import ParitySolver.Proofs.Fact.Reader
import ParitySolver.Proofs.Matrix.LinearReadings
import ParitySolver.Proofs.Matrix.Untracked
import ParitySolver.Proofs.Theory.Batch
import ParitySolver.Proofs.Matrix.GaussJordan
import ParitySolver.Proofs.Matrix.Lossless
import ParitySolver.Proofs.Theory.Tableau
import ParitySolver.Proofs.Matrix.Keyed
import ParitySolver.Proofs.Theory.Irredundant
import ParitySolver.Proofs.NormalForm
import ParitySolver.Proofs.StoreTables
import ParitySolver.Proofs.Grouping
import ParitySolver.Proofs.BitSet
import ParitySolver.Proofs.IndexSet
import ParitySolver.Proofs.Theory.WatchInvariant
import ParitySolver.Proofs.StackOrder
import ParitySolver.Proofs.Universe
import ParitySolver.Proofs.Cutoff
