import ChoiceSearch.Scalar.Double
import ChoiceSearch.Decimal.Shortest
import ChoiceSearch.Decimal.Numeral
import ChoiceSearch.Config
import ChoiceSearch.Frontier.EntryHeap
import ChoiceSearch.Frontier.KBest
import ChoiceSearch.Frontier.Unbounded
import ChoiceSearch.Graph.Gradient
import ChoiceSearch.Graph.Descent
import ChoiceSearch.ExecutionScore
import ChoiceSearch.Transition
import ChoiceSearch.Search.Beam
import ChoiceSearch.Search.Seeded
import ChoiceSearch.Search.SumProduct
import ChoiceSearch.Training
import ChoiceSearch.Script.Build
import ChoiceSearch.Text.Outline
import ChoiceSearch.Proofs.Listing
import ChoiceSearch.Proofs.Scalar.Laws
import ChoiceSearch.Proofs.Search.Route
import ChoiceSearch.Proofs.Search.Resolve
import ChoiceSearch.Proofs.Frontier.KBest
import ChoiceSearch.Proofs.Search.Level
import ChoiceSearch.Proofs.Search.Survival
import ChoiceSearch.Proofs.Scalar.Exact
import ChoiceSearch.Proofs.Search.Alike
import ChoiceSearch.Proofs.Search.Fuel
import ChoiceSearch.Proofs.Search.Tree
import ChoiceSearch.Proofs.Search.Exhaustive
import ChoiceSearch.Proofs.Search.Marking
import ChoiceSearch.Proofs.Search.Flow
import ChoiceSearch.Proofs.Search.Exploring
import ChoiceSearch.Proofs.Search.Agreement
import ChoiceSearch.Proofs.Search.Pairing
import ChoiceSearch.Proofs.Scalar.Double
import ChoiceSearch.Proofs.Search.Building
import ChoiceSearch.Proofs.Search.Walk
import ChoiceSearch.Proofs.Search.Drawing
import ChoiceSearch.Proofs.Search.Exhaustion
import ChoiceSearch.Proofs.Search.Sampling
import ChoiceSearch.Proofs.Search.SamplePaths
import ChoiceSearch.Proofs.Scalar.Neutral
import ChoiceSearch.Proofs.Search.Untimed
import ChoiceSearch.Proofs.Search.Opening
import ChoiceSearch.Proofs.Search.Collapsing
import ChoiceSearch.Proofs.Search.Lockstep
import ChoiceSearch.Proofs.Search.MonadLaws
import ChoiceSearch.Proofs.Table
import ChoiceSearch.Proofs.Scalar.Real
import ChoiceSearch.Proofs.Scalar.LogSumExp
import ChoiceSearch.Proofs.Graph.Evaluate
import ChoiceSearch.Proofs.Graph.Tangent
import ChoiceSearch.Proofs.Graph.Adjoint
import ChoiceSearch.Proofs.Search.Labels
import ChoiceSearch.Proofs.Search.Tally
import ChoiceSearch.Proofs.Search.Reckoning
import ChoiceSearch.Proofs.Search.Conservation
import ChoiceSearch.Proofs.Search.Screening
import ChoiceSearch.Proofs.Search.Filtering
import ChoiceSearch.Proofs.Training.Loss
import ChoiceSearch.Proofs.Training.Sign
import ChoiceSearch.Proofs.Training.Runs
import ChoiceSearch.Proofs.Log.Nesting
import ChoiceSearch.Proofs.Training.Accounts
import ChoiceSearch.Proofs.Scalar.Extended
import ChoiceSearch.Proofs.Scalar.SameWeight
import ChoiceSearch.Proofs.Search.Weighing
import ChoiceSearch.Proofs.Search.ScoreLaws
import ChoiceSearch.Proofs.Search.Traversal
import ChoiceSearch.Proofs.Search.PathSum
import ChoiceSearch.Proofs.Search.Ordering
import ChoiceSearch.Proofs.Search.Discovery
import ChoiceSearch.Proofs.Search.ChoiceGraph
import ChoiceSearch.Proofs.Frontier.Ranking
import ChoiceSearch.Proofs.Frontier.EntryHeap
import ChoiceSearch.Proofs.Frontier.History
import ChoiceSearch.Proofs.Graph.Shapes
import ChoiceSearch.Proofs.Search.Truncation
import ChoiceSearch.Proofs.Search.CollapsedBeam
import ChoiceSearch.Proofs.Search.Leftover
import ChoiceSearch.Proofs.Search.Proportional
import ChoiceSearch.Proofs.Search.Repetition
import ChoiceSearch.Proofs.Env.History
import ChoiceSearch.Proofs.Search.Invariance
import ChoiceSearch.Proofs.Search.Timekeeping
import ChoiceSearch.Proofs.Search.Termination
import ChoiceSearch.Proofs.Search.InfiniteWeights
import ChoiceSearch.Proofs.Graph.Lengths
import ChoiceSearch.Proofs.Frontier.SignedZeros
import ChoiceSearch.Proofs.Search.Continuations
import ChoiceSearch.Proofs.Search.Moments
import ChoiceSearch.Proofs.Script.Naming
import ChoiceSearch.Proofs.Search.Placement
import ChoiceSearch.Proofs.Search.Reuse
