import Wiring.Config.Document
import Wiring.Context.Scratch
import Wiring.Export.Document
import Wiring.Export.Dot
import Wiring.Export.Listing
import Wiring.Injector
import Wiring.Rule.Draft
import Wiring.Solver.Observed
import Wiring.Solver.Revision
import Wiring.Proofs.BackEdges
import Wiring.Proofs.Catalog.Hierarchy
import Wiring.Proofs.Dag.Replace
import Wiring.Proofs.Labels
import Wiring.Proofs.Solver.Calls
import Wiring.Proofs.Solver.Completeness
import Wiring.Proofs.Solver.Coverage
import Wiring.Proofs.Solver.Deferral
import Wiring.Proofs.Solver.Determined
import Wiring.Proofs.Solver.Expansion
import Wiring.Proofs.Solver.Narrowings
import Wiring.Proofs.Solver.Origin
import Wiring.Proofs.Solver.Pass
import Wiring.Proofs.Solver.Paths
import Wiring.Proofs.Solver.Queue
import Wiring.Proofs.Solver.Representation
import Wiring.Proofs.Solver.Resolves
import Wiring.Proofs.Solver.Rounds
import Wiring.Proofs.Solver.Termination
import Wiring.Proofs.Solver.Tree
import Wiring.Proofs.Dag.Same
import Wiring.Proofs.BackEdges.Same
import Wiring.Proofs.Solver.Puts
import Wiring.Proofs.Solver.Beside
import Wiring.Proofs.Solver.Simulation
import Wiring.Proofs.Solver.Failures
import Wiring.Proofs.Solver.Steps
import Wiring.Proofs.Solver.Independence
import Wiring.Proofs.Solver.Repetition
import Wiring.Proofs.Solver.ProviderCycles
import Wiring.Proofs.Dag.Labels
import Wiring.Proofs.Dag.Memory
import Wiring.Proofs.Dag.Transform
import Wiring.Proofs.Typed
import Wiring.Proofs.Solver.ClassGraphs
import Wiring.Proofs.Solver.Memory
import Wiring.Proofs.Solver.Walk
import Wiring.Proofs.Solver.Revision
import Wiring.Proofs.Solver.Standing
import Wiring.Proofs.Solver.Unchanged
import Wiring.Proofs.Context.Alignment
import Wiring.Proofs.Context.Nested
import Wiring.Proofs.Dag.Sessions
import Wiring.Proofs.Solver.Tending
import Wiring.Proofs.Solver.Holding
import Wiring.Proofs.Solver.Losses
import Wiring.Proofs.Firing
import Wiring.Proofs.Reordering
import Wiring.Proofs.Solver.Agreement
import Wiring.Proofs.Solver.Failing
import Wiring.Proofs.Solver.Permuted
import Wiring.Proofs.Coherence
import Wiring.Proofs.Solver.Stems
import Wiring.Proofs.Solver.Assignable
import Wiring.Proofs.Solver.Unscoped
import Wiring.Proofs.Solver.Sharing
import Wiring.Proofs.Solver.Closing
import Wiring.Proofs.Solver.Describing
import Wiring.Proofs.Solver.Trails
import Wiring.Proofs.Container
import Wiring.Proofs.Injector.Memoizing
import Wiring.Proofs.Solver.Histories
import Wiring.Proofs.Injector.Requests
import Wiring.Proofs.Injector.Renewing
import Wiring.Proofs.Injector.Disposal
import Wiring.Proofs.Dag.Substitution
import Wiring.Proofs.Solver.Offers
import Wiring.Proofs.Solver.Refusals
import Wiring.Proofs.Solver.Leftovers
import Wiring.Proofs.Dag.Obtained
import Wiring.Proofs.Dag.Rewiring
import Wiring.Proofs.Dag.Walking
import Wiring.Proofs.Catalog.Distances
import Wiring.Proofs.Derivation
import Wiring.Proofs.Isolation
import Wiring.Proofs.Catalog.Registration
import Wiring.Proofs.Export
import Wiring.Proofs.Lifecycle
import Wiring.Proofs.Dag.Nearest
import Wiring.Proofs.Export.Ids
import Wiring.Proofs.Export.RoundTrip
import Wiring.Proofs.Ranking
