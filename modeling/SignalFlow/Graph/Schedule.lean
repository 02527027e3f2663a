import SignalFlow.Graph.Partition

/-!
# The order of execution

The nodes of a subgraph are called in an order in which every edge points forward. Nodes
without edges into them are ready at the start; a node gets ready when the last node before it
has been taken. Nodes are taken in the order in which they got ready. If the edges have a
cycle, some nodes never get ready.
-/

namespace SignalFlow.Schedule

/-- The nodes that are ready but not taken, and how many edges are left into each node. -/
structure State where
  ready : List NodeId
  degree : NodeId → Nat

/-- The edges between nodes of a list. -/
def inner (nodes : List NodeId) (edges : List Edge) : List Edge :=
  edges.filter fun (source, target) ↦ decide (source ∈ nodes) && decide (target ∈ nodes)

def degreeIn (edges : List Edge) (node : NodeId) : Nat :=
  edges.countP (·.2 == node)

/-- The state before any node is taken. -/
def start (nodes : List NodeId) (edges : List Edge) : State where
  ready := nodes.filter (degreeIn edges · == 0)
  degree := degreeIn edges

/-- Removes an edge into a node, which gets ready if it was the last one. -/
def State.release (s : State) (node : NodeId) : State where
  ready := if s.degree node - 1 = 0 then s.ready ++ [node] else s.ready
  degree n := if n = node then s.degree node - 1 else s.degree n

/-- The nodes behind a node, in the order of the edges. -/
def successors (edges : List Edge) (node : NodeId) : List NodeId :=
  (edges.filter (·.1 == node)).map (·.2)

/-- Takes ready nodes, at most `fuel` of them: the nodes in the order of taking and the state
behind. -/
def takeReady (edges : List Edge) : (fuel : Nat) → State → List NodeId × State
  | 0, s => ([], s)
  | fuel + 1, s =>
    match s.ready with
    | [] => ([], s)
    | node :: ready =>
      let s := (successors edges node).foldl State.release { s with ready }
      let (order, s) := takeReady edges fuel s
      (node :: order, s)

/-- The order of execution, or the nodes that never get ready. Each node is taken once at
most. -/
def order (nodes : List NodeId) (edges : List Edge) : Except (List NodeId) (List NodeId) :=
  let edges := inner nodes edges
  let (order, s) := takeReady edges nodes.length (start nodes edges)
  if order.length = nodes.length then .ok order
  else .error (nodes.filter (s.degree · != 0))

end SignalFlow.Schedule
