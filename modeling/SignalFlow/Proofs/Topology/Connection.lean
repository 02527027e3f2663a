import Mathlib.Combinatorics.SimpleGraph.Connectivity.Connected
import SignalFlow.Graph.Partition

/-!
# Topologies

A topology is the list of the connections that a graph has accepted. A direct connection is an
edge; a queued one is two, from the source to the writer of its queue and from the reader to the
target. A topology is lawful if no queue leads from a component into the same component and no
component is fed by two queues.
-/

namespace SignalFlow

open SimpleGraph

/-- A connection by a queue, with the writer and the reader that stand between. -/
structure Bridge where
  source : NodeId
  writer : NodeId
  reader : NodeId
  target : NodeId
  queue : QueueId
deriving DecidableEq, Repr

/-- A connection that was accepted. -/
inductive Connection where
  | direct (source target : NodeId)
  | queued (bridge : Bridge)
deriving DecidableEq, Repr

def Connection.edges : Connection → List Edge
  | .direct source target => [(source, target)]
  | .queued bridge => [(bridge.source, bridge.writer), (bridge.reader, bridge.target)]

def Connection.bridge? : Connection → Option Bridge
  | .direct _ _ => none
  | .queued bridge => some bridge

/-- The connections that were accepted, in their order. -/
abbrev Topology := List Connection

namespace Topology

def edges (t : Topology) : List Edge :=
  t.flatMap Connection.edges

def bridges (t : Topology) : List Bridge :=
  t.filterMap Connection.bridge?

/-- The undirected graph of the edges. There is none between a writer and its reader. -/
def wiring (t : Topology) : SimpleGraph NodeId :=
  fromRel fun a b ↦ (a, b) ∈ t.edges

/-- No queue leads from a component into itself, and no component is fed by two queues. -/
structure Lawful (t : Topology) : Prop where
  apart : ∀ b ∈ t.bridges, ¬ t.wiring.Reachable b.writer b.reader
  single : ∀ b ∈ t.bridges, ∀ c ∈ t.bridges, t.wiring.Reachable b.reader c.reader → b = c

theorem fromRel_mem_append (edges : List Edge) (a b : NodeId) :
    fromRel (fun x y ↦ (x, y) ∈ edges ++ [(a, b)]) =
      fromRel (fun x y ↦ (x, y) ∈ edges) ⊔ edge a b := by
  ext x y
  simp only [fromRel_adj, sup_adj, edge_adj, List.mem_append, List.mem_singleton, Prod.mk.injEq]
  tauto

theorem wiring_nil : wiring [] = ⊥ := by
  ext x y
  simp [wiring, edges]

theorem wiring_direct (t : Topology) (a b : NodeId) :
    wiring (t ++ [.direct a b]) = t.wiring ⊔ edge a b := by
  simpa [wiring, edges, Connection.edges] using fromRel_mem_append t.edges a b

theorem wiring_queued (t : Topology) (b : Bridge) :
    wiring (t ++ [.queued b]) =
      wiring (t ++ [.direct b.source b.writer, .direct b.reader b.target]) := by
  simp [wiring, edges, Connection.edges]

@[simp] theorem bridges_direct (t : Topology) (a b : NodeId) :
    bridges (t ++ [.direct a b]) = t.bridges := by
  simp [bridges, Connection.bridge?]

@[simp] theorem bridges_queued (t : Topology) (b : Bridge) :
    bridges (t ++ [.queued b]) = t.bridges ++ [b] := by
  simp [bridges, Connection.bridge?]

end Topology

end SignalFlow
