import JobGraph.Graph.ErrorJson
import JobGraph.Job.Counters
import JobGraph.Main
import JobGraph.Proofs.Graph.Layouts
import JobGraph.Proofs.Workflow.Redelivery
import JobGraph.Workflow.Selection
import JobGraph.Proofs.Graph.Cycles
import JobGraph.Proofs.Graph.StrictLayering
import JobGraph.Proofs.Graph.Contraction
import JobGraph.Proofs.Graph.Matrix
import JobGraph.Proofs.Workflow.Stepwise
import JobGraph.Proofs.Polling.Playback
import JobGraph.Proofs.Workflow.Updates
import JobGraph.Proofs.Workflow.Lookup
import JobGraph.Proofs.Workflow.SingleEvents
import JobGraph.Proofs.Workflow.JobNames
import JobGraph.Proofs.Polling.History
import JobGraph.Proofs.Graph.NeighbourLookup
import JobGraph.Proofs.Workflow.Reloading
import JobGraph.Proofs.Workflow.Failures
import JobGraph.Proofs.Graph.Payloads
import JobGraph.Proofs.Workflow.Confinement
import JobGraph.Proofs.Workflow.Placement
import JobGraph.Proofs.Json.Values
import JobGraph.Proofs.Json.Scanning
import JobGraph.Proofs.Json.Parsing
import JobGraph.Proofs.Json.Records
import JobGraph.Proofs.Snapshot.Rereading
import JobGraph.Proofs.Graph.Sizes
import JobGraph.Proofs.Graph.GuardedEdges
import JobGraph.Proofs.Snapshot.Graphs
import JobGraph.Proofs.Graph.GuardedLayering
import JobGraph.Proofs.Graph.GuardedRouting
import JobGraph.Proofs.Graph.GuardedMatrix
import JobGraph.Proofs.Graph.GuardedOrdering
import JobGraph.Proofs.Graph.GuardedRuns
import JobGraph.Proofs.Graph.InputOrder
import JobGraph.Proofs.Workflow.Marks
import JobGraph.Proofs.Polling.PlayingOut
import JobGraph.Proofs.Polling.ClientFailures
import JobGraph.Proofs.Polling.Notices
import JobGraph.Proofs.Polling.Shuffling
import JobGraph.Proofs.Graph.Refusals
import JobGraph.Proofs.Graph.Descent
import JobGraph.Proofs.Graph.WaypointIds
import JobGraph.Proofs.Graph.RankOrder
import JobGraph.Proofs.Snapshot.Agreement
import JobGraph.Proofs.Workflow.Flags
import JobGraph.Proofs.Workflow.Accounts
import JobGraph.Proofs.Graph.Sweeps
import JobGraph.Proofs.Graph.Circles
import JobGraph.Proofs.Graph.Crossings
import JobGraph.Proofs.Json.Fields
import JobGraph.Proofs.Job.Merging
import JobGraph.Proofs.Job.Rereading
