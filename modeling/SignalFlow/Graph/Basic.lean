import SignalFlow.Graph.Binding
import SignalFlow.Graph.Schedule
import SignalFlow.Node.Basic

/-!
# Graphs

A graph has nodes, queues between subgraphs, names bound to controls, and options. It is
stopped or running. While it runs, the nodes of its subgraphs are away with the threads that
call them, and neither the topology nor the bindings change. A node whose thread has died
does not come back.
-/

namespace SignalFlow

/-- How a graph is run. -/
structure Options where
  /-- The capacity of a queue that is made without one. -/
  queueCapacity : Nat
  /-- How many milliseconds a subgraph waits for data before it looks around again. -/
  dataWait : Nat
  /-- What the names of the threads begin with. -/
  threadName : String
deriving DecidableEq, Repr, Inhabited

namespace Options

/-- The options of a graph that is made without any. -/
def standard : Options where
  queueCapacity := 100
  dataWait := 10
  threadName := "sdrflow"

/-- The wait in microseconds, as much of it as a word of 64 bits holds. -/
def waitMicros (o : Options) : Nat :=
  1000 * o.dataWait % UInt64.size

/-- A time in milliseconds in the unit that suits it. -/
def inspectTime (milliseconds : Nat) : String :=
  if milliseconds = 0 then "0ns"
  else if milliseconds < 1000 then toString milliseconds ++ "ms"
  else
    let digits := Nat.toDigits 10 (1000 + milliseconds % 1000)
    let fraction := (digits.drop 1).reverse.dropWhile (· == '0') |>.reverse
    toString (milliseconds / 1000) ++
      (if fraction.isEmpty then "" else "." ++ String.ofList fraction) ++ "s"

def inspect (o : Options) : String :=
  "GraphOptions \x7b default_queue_capacity: " ++ toString o.queueCapacity ++ ", data_wait: " ++
    inspectTime o.dataWait ++ ", thread_name_prefix: " ++ Text.quoted o.threadName ++ " \x7d"

end Options

/-- Why an operation on a graph is refused. -/
inductive GraphError where
  | nodeNotFound (node : NodeId)
  | nodeUnavailable (node : NodeId)
  | port (ref : PortRef) (fault : PortFault)
  | badTopology (fault : TopologyFault)
  | cycleTopology (subgraph : SubgraphId) (remaining : List NodeId)
  | invalidControlNode (name : String) (node : NodeId)
  | binding (name : String) (ref : PortRef) (fault : Control.Fault)
  | frozen
  | alreadyRunning
  | emptyGraph
  | spawn (reason : String)
deriving DecidableEq, Repr

def GraphError.text : GraphError → String
  | .nodeNotFound node => "node " ++ node.text ++ " not found"
  | .nodeUnavailable node => "node " ++ node.text ++ " is not available"
  | .port ref fault =>
    "node " ++ ref.node.text ++ " port " ++ toString ref.port ++ ": " ++ fault.text
  | .badTopology fault => "bad topology: " ++ fault.text
  | .cycleTopology subgraph remaining =>
    "cycle topology in subgraph " ++ subgraph.text ++ ": " ++ toString remaining.length ++
      " node(s) never became ready"
  | .invalidControlNode name node =>
    "control '" ++ name ++ "' is bound to node " ++ node.text ++ ", which belongs to no subgraph"
  | .binding name ref fault =>
    "cannot bind '" ++ name ++ "' to node " ++ ref.node.text ++ " port " ++ toString ref.port ++
      ": " ++ fault.text
  | .frozen => "bindings cannot change while the graph is running"
  | .alreadyRunning => "graph is already running"
  | .emptyGraph => "graph has no subgraphs to run"
  | .spawn reason => "failed to spawn subgraph thread: " ++ reason

/-- A node with the name that it gave when it came. -/
structure Slot (σ ω : Type) where
  name : String
  node : Node σ ω
  /-- Whether the node is at home, and neither away with a thread nor lost. -/
  available : Bool

/-- A subgraph that runs: its nodes in the order of execution, and whether its thread lives. -/
structure Run where
  subgraph : SubgraphId
  order : List NodeId
  alive : Bool
deriving DecidableEq, Repr, Inhabited

/-- A graph of nodes. -/
structure Graph (σ ω : Type) where
  slots : List (Slot σ ω)
  queues : List DataQueue
  partition : Partition Batch
  bindings : NameMap (List Binding)
  options : Options
  /-- The subgraphs that run, if the graph does. -/
  runs : Option (List Run)

namespace Graph

variable {σ ω : Type}

def empty (options : Options) : Graph σ ω where
  slots := []
  queues := []
  partition := .empty
  bindings := .empty
  options := options
  runs := none

def isRunning (g : Graph σ ω) : Bool :=
  g.runs.isSome

def slot? (g : Graph σ ω) (id : NodeId) : Option (Slot σ ω) :=
  g.slots[id.index]?

/-- The name that a node gave when it came. -/
def name? (g : Graph σ ω) (id : NodeId) : Option String :=
  (g.slot? id).map (·.name)

/-- A node that is at home. -/
def node (g : Graph σ ω) (id : NodeId) : Except GraphError (Node σ ω) :=
  match g.slot? id with
  | none => .error (.nodeNotFound id)
  | some slot => if slot.available then .ok slot.node else .error (.nodeUnavailable id)

/-- Changes a node wherever it is. -/
def modifyNode (g : Graph σ ω) (id : NodeId) (change : Node σ ω → Node σ ω) : Graph σ ω :=
  { g with slots := g.slots.modify id.index fun slot ↦ { slot with node := change slot.node } }

/-- Changes the states of all nodes that have one. -/
def mapStates (change : σ → σ) (g : Graph σ ω) : Graph σ ω :=
  let role : Role σ → Role σ
    | .custom state => .custom (change state)
    | r => r
  { g with slots := g.slots.map fun slot ↦
      { slot with node := { slot.node with role := role slot.node.role } } }

def push [Behaviour σ ω] (g : Graph σ ω) (ports : List (PortSpec ω)) (role : Role σ) :
    NodeId × Graph σ ω :=
  (⟨g.slots.length⟩,
    { g with slots := g.slots ++ [⟨role.name, .ofSpecs ports role, true⟩] })

def add [Behaviour σ ω] (g : Graph σ ω) (ports : List (PortSpec ω)) (state : σ) :
    NodeId × Graph σ ω :=
  g.push ports (.custom state)

def nodeCount (g : Graph σ ω) : Nat :=
  g.slots.length

/-- The number of nodes that were not put in by the graph itself. -/
def customNodeCount (g : Graph σ ω) : Nat :=
  g.slots.countP (!·.node.role.isHidden)

/-- What the outputs hold. -/
def published (g : Graph σ ω) (ref : PortRef) : Option Datum := do
  (← (← g.slot? ref.node).node.ports[ref.port]?).published

def addQueue (g : Graph σ ω) (type : DataType) (capacity : Nat) : QueueId × Graph σ ω :=
  (⟨g.queues.length⟩, { g with queues := g.queues ++ [⟨type, .ofCapacity capacity⟩] })

def queue? (g : Graph σ ω) (id : QueueId) : Option DataQueue :=
  g.queues[id.index]?

def queueShape (g : Graph σ ω) (id : QueueId) : QueueShape :=
  ((g.queue? id).getD default).shape

def modifyQueue (g : Graph σ ω) (id : QueueId) (change : Queue Datum → Queue Datum) :
    Graph σ ω :=
  { g with queues := g.queues.modify id.index fun q ↦ { q with queue := change q.queue } }

/-- The subgraph of a node, if it was ever connected. -/
def subgraphOf (g : Graph σ ω) (id : NodeId) : Option SubgraphId :=
  g.partition.of id

def sameSubgraph (g : Graph σ ω) (a b : NodeId) : Bool :=
  match g.subgraphOf a, g.subgraphOf b with
  | some a, some b => a == b
  | _, _ => false

def subgraphs (g : Graph σ ω) : List SubgraphId :=
  g.partition.roots

def inspect (g : Graph σ ω) : String :=
  "Graph \x7b nodes: " ++ toString g.nodeCount ++ ", subgraphs: " ++ toString g.subgraphs.length ++
    ", running: " ++ inspectBool g.isRunning ++ ", options: " ++ g.options.inspect ++ ", .. \x7d"

end Graph

end SignalFlow
