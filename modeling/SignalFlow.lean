import SignalFlow.Latch
import SignalFlow.Main
import SignalFlow.Proofs.Partition.Feeding
import SignalFlow.Proofs.Topology.Edges
import SignalFlow.Proofs.Graph.Work
import SignalFlow.Proofs.Graph.Subgraphs
import SignalFlow.Proofs.Graph.Clocks
import SignalFlow.Proofs.Graph.Threads
import SignalFlow.Proofs.Graph.Cells
import SignalFlow.Proofs.Graph.Bridging
import SignalFlow.Proofs.Graph.InPlace
import SignalFlow.Proofs.Graph.Posting
import SignalFlow.Proofs.Graph.Delivering
import SignalFlow.Proofs.Graph.Motions
import SignalFlow.Proofs.Graph.Ledger
import SignalFlow.Proofs.Graph.Steps
import SignalFlow.Proofs.Node.Within
import SignalFlow.Proofs.Graph.Cycle
import SignalFlow.Proofs.Graph.Targets
import SignalFlow.Proofs.Graph.Batches
import SignalFlow.Proofs.Graph.Mail
import SignalFlow.Proofs.Topology.Renaming
import SignalFlow.Proofs.Graph.Building
import SignalFlow.Proofs.Node.Trace
import SignalFlow.Proofs.Graph.Reading
import SignalFlow.Proofs.Graph.Adapters
import SignalFlow.Proofs.Graph.Reordering
import SignalFlow.Proofs.Graph.Restarting
import SignalFlow.Proofs.Crew.Barriers
import SignalFlow.Proofs.Graph.HandOver
import SignalFlow.Proofs.Graph.Determinacy
import SignalFlow.Proofs.Graph.Rounds
import SignalFlow.Proofs.Queue.Watching
import SignalFlow.Proofs.Queue.Waking
import SignalFlow.Proofs.Flow.RoundTrip
import SignalFlow.Proofs.Control.Packets
import SignalFlow.Proofs.Control.Rendering
import SignalFlow.Proofs.Control.Clamping
import SignalFlow.Proofs.Flow.Ranges
import SignalFlow.Proofs.Graph.Guards
import SignalFlow.Proofs.Schedule.Loop
import SignalFlow.Proofs.Schedule.Together
import SignalFlow.Proofs.Graph.Planning
import SignalFlow.Proofs.Graph.Dispatching
import SignalFlow.Proofs.Graph.Rejecting
import SignalFlow.Proofs.Node.Sharing
import SignalFlow.Proofs.Graph.SelfConnections
import SignalFlow.Proofs.Flow.Saving
import SignalFlow.Proofs.Control.Acceptance
import SignalFlow.Proofs.Partition.Resolving
