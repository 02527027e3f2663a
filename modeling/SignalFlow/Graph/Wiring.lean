import SignalFlow.Graph.Basic

/-!
# Connections

An output is connected to an input directly, which puts both nodes into one subgraph, or by a
queue, which keeps them apart: a writer joins the subgraph of the producer, and a reader that
of the consumer, which the queue feeds from then on. A connection that is refused changes
nothing.
-/

namespace SignalFlow.Graph

variable {σ ω : Type}

/-- The topology changes only while the graph is stopped. -/
def ensureStopped (g : Graph σ ω) : Except GraphError Unit :=
  if g.isRunning then .error (.badTopology .running) else .ok ()

/-- The port of a node that is at home. -/
def port (g : Graph σ ω) (ref : PortRef) : Except GraphError (Port PortRef ω) := do
  match (← g.node ref.node).ports[ref.port]? with
  | none => .error (.port ref (.noSuchPort ref.port))
  | some p => .ok p

/-- A port that must be an output. -/
def output (g : Graph σ ω) (ref : PortRef) : Except GraphError Output := do
  match ← g.port ref with
  | .output o => .ok o
  | p => .error (.port ref (.wrongKind .output p.kind))

/-- A port that must be an input. -/
def input (g : Graph σ ω) (ref : PortRef) : Except GraphError (Input PortRef) := do
  match ← g.port ref with
  | .input i => .ok i
  | p => .error (.port ref (.wrongKind .input p.kind))

/-- The first port of a kind of a node. A node without one is blamed at its port zero. -/
def defaultPort (g : Graph σ ω) (id : NodeId) (kind : PortKind) : Except GraphError PortRef := do
  match (← g.node id).firstPort kind with
  | .ok index => .ok ⟨id, index⟩
  | .error fault => .error (.port ⟨id, 0⟩ fault)

/-- The input attached to the output, if the two fit. -/
def attached (g : Graph σ ω) (source target : PortRef) : Except GraphError (Input PortRef) :=
  if source.node = target.node then .error (.badTopology (.selfConnection source.node))
  else do
    let o ← g.output source
    let i ← g.input target
    match i.attach source o.type with
    | .ok i => .ok i
    | .error fault => .error (.port target fault)

/-- Whether the subgraphs of two nodes may grow together, if both have one. -/
def checkJoin (g : Graph σ ω) (source target : NodeId) : Except GraphError Unit :=
  match g.subgraphOf source, g.subgraphOf target with
  | some a, some b => (g.partition.checkMerge a b).mapError .badTopology
  | _, _ => .ok ()

def connectPorts (g : Graph σ ω) (source target : PortRef) : Except GraphError (Graph σ ω) := do
  g.ensureStopped
  let i ← g.attached source target
  g.checkJoin source.node target.node
  let g := g.modifyNode target.node fun n ↦
    { n with ports := n.ports.set target.port (.input i) }
  return { g with partition := g.partition.join source.node target.node }

/-- Connects the first output of a node to the first input of another. -/
def connect (g : Graph σ ω) (source target : NodeId) : Except GraphError (Graph σ ω) := do
  g.ensureStopped
  let output ← g.defaultPort source .output
  let input ← g.defaultPort target .input
  g.connectPorts output input

/-- A queue joins different subgraphs, and feeds a subgraph that no other queue feeds. -/
def checkQueue (g : Graph σ ω) (source target : NodeId) : Except TopologyFault Unit := do
  if source = target then .error (.selfConnection source)
  match g.subgraphOf target with
  | none => return
  | some subgraph =>
    if g.subgraphOf source = some subgraph then .error (.sameSubgraph source target subgraph)
    if (g.partition.inbound subgraph).isSome then .error (.secondInboundQueue subgraph)

/-- Connects an output to an input by a queue of the given capacity. -/
def connectQueuedPorts [Behaviour σ ω] (g : Graph σ ω) (source target : PortRef)
    (capacity : Nat) : Except GraphError (QueueId × Graph σ ω) := do
  g.ensureStopped
  (g.checkQueue source.node target.node).mapError .badTopology
  let _ ← g.attached source target
  let type := (← g.output source).type
  let (queue, g) := g.addQueue type capacity
  let (writer, g) := g.push (Adapter.writerPorts type) (.writer queue)
  let (reader, g) := g.push (Adapter.readerPorts type) (.reader queue)
  let g ← g.connectPorts source ⟨writer, 0⟩
  let g ← g.connectPorts ⟨reader, 0⟩ target
  match g.subgraphOf source.node, g.subgraphOf target.node with
  | some producer, some consumer =>
    let partition := (g.partition.setInbound consumer queue).link producer consumer
    return (queue, { g with partition })
  | _, _ => .error (.nodeUnavailable target.node)

/-- Connects the first output of a node to the first input of another by a queue. -/
def connectQueuedWithCapacity [Behaviour σ ω] (g : Graph σ ω) (source target : NodeId)
    (capacity : Nat) : Except GraphError (QueueId × Graph σ ω) := do
  g.ensureStopped
  let output ← g.defaultPort source .output
  let input ← g.defaultPort target .input
  g.connectQueuedPorts output input capacity

/-- Connects two nodes by a queue of the usual capacity. -/
def connectQueued [Behaviour σ ω] (g : Graph σ ω) (source target : NodeId) :
    Except GraphError (QueueId × Graph σ ω) :=
  g.connectQueuedWithCapacity source target g.options.queueCapacity

end SignalFlow.Graph
