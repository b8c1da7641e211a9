import CallForest.Analysis.Basic
import CallForest.Config.Json
import CallForest.Graph.Json
import CallForest.Graph.Query
import CallForest.Traversal.Visitor
import CallForest.Proofs.Building
import CallForest.Proofs.Unrolling
import CallForest.Proofs.Forest
import CallForest.Proofs.Running
import CallForest.Proofs.Outcome
import CallForest.Proofs.Layout
import CallForest.Proofs.Ancestry
import CallForest.Proofs.Cycles
import CallForest.Proofs.CodeInduction
import CallForest.Proofs.CodeWalk
import CallForest.Proofs.Contents
import CallForest.Proofs.Completeness
import CallForest.Proofs.Levels
import CallForest.Proofs.Truncation
import CallForest.Proofs.Warnings
import CallForest.Proofs.DepthLimit
import CallForest.Proofs.LookupFaults
import CallForest.Proofs.Termination
import CallForest.Proofs.Roots
import CallForest.Proofs.Overriding
import CallForest.Proofs.Tracking
import CallForest.Proofs.Embedding
import CallForest.Proofs.Occurrences
import CallForest.Proofs.Modifications
import CallForest.Proofs.OnePass
import CallForest.Proofs.Closed
import CallForest.Proofs.Returns
import CallForest.Proofs.Recursion
import CallForest.Proofs.CutCycles
import CallForest.Proofs.CallSites
import CallForest.Proofs.Subtrees
import CallForest.Proofs.Unreached
import CallForest.Proofs.Deriving
import CallForest.Proofs.Failure
import CallForest.Proofs.Expansion
import CallForest.Proofs.Telling
import CallForest.Proofs.EffectOrder
import CallForest.Proofs.BackEdges
import CallForest.Proofs.CalledFunctions
import CallForest.Proofs.JsonText
import CallForest.Proofs.StoreHistory
import CallForest.Proofs.RoundTrip
import CallForest.Proofs.AcyclicWalks
import CallForest.Proofs.FirstMatch
import CallForest.Proofs.DrawingText
import CallForest.Proofs.Parentheses
import CallForest.Proofs.Recoding
import CallForest.Proofs.RedundantParentheses
import CallForest.Proofs.EffectQueries
import CallForest.Proofs.Scopes
import CallForest.Proofs.Visits
import CallForest.Proofs.TypeHashing
import CallForest.Proofs.TypeText
import CallForest.Proofs.SpanText
import CallForest.Proofs.BuilderStates
import CallForest.Proofs.InnermostNode
