import SignalFlow.Data

/-!
# The division of nodes into subgraphs

Connecting two nodes puts them into one subgraph. When two subgraphs grow together the one
with fewer nodes is merged into the other, the second into the first if they are equal; its
entry stays and points to the survivor, so that old identifiers go on to mean something. Each
entry has batches that wait for it, and those of a merged entry go behind those of the
survivor.
-/

namespace SignalFlow

/-- A rule of the topology that a connection would break. -/
inductive TopologyFault where
  | selfConnection (node : NodeId)
  | sameSubgraph (source target : NodeId) (subgraph : SubgraphId)
  | secondInboundQueue (subgraph : SubgraphId)
  | mergeInboundQueues (a b : SubgraphId)
  | queueLoop (a b : SubgraphId)
  | running
deriving DecidableEq, Repr

def TopologyFault.text : TopologyFault → String
  | .selfConnection node => "node " ++ node.text ++ " cannot be connected to itself"
  | .sameSubgraph source target subgraph =>
    "nodes " ++ source.text ++ " and " ++ target.text ++ " already share subgraph " ++
      subgraph.text
  | .secondInboundQueue subgraph => "subgraph " ++ subgraph.text ++ " already owns an inbound queue"
  | .mergeInboundQueues a b =>
    "cannot merge subgraphs " ++ a.text ++ " and " ++ b.text ++ ": both own an inbound queue"
  | .queueLoop a b =>
    "cannot merge subgraphs " ++ a.text ++ " and " ++ b.text ++ ": they are linked by a queue"
  | .running => "topology cannot change while the graph is running"

/-- An ordering edge: the first node comes before the second. -/
abbrev Edge := NodeId × NodeId

namespace Partition

/-- A subgraph, or what is left of one that was merged into its parent. -/
structure Entry (β : Type) where
  parent : Nat
  nodes : List NodeId
  edges : List Edge
  inbound : Option QueueId
  pending : List β
deriving Inhabited

def Entry.root {β : Type} (index : Nat) : Entry β :=
  ⟨index, [], [], none, []⟩

def addUnlessThere (edges : List Edge) (edge : Edge) : List Edge :=
  if edge ∈ edges then edges else edges ++ [edge]

end Partition

/-- The subgraphs, the entry that each node was put into last, and the queues between
subgraphs as pairs of the producing and the consuming entry. -/
structure Partition (β : Type) where
  entries : List (Partition.Entry β)
  membership : NodeId → Option Nat
  links : List (Nat × Nat)

namespace Partition

variable {β : Type}

def empty : Partition β where
  entries := []
  membership _ := none
  links := []

def entry (p : Partition β) (index : Nat) : Entry β :=
  p.entries[index]?.getD (.root index)

/-- Follows parents from an entry, at most `fuel` times. -/
def rootWithin (p : Partition β) : (fuel : Nat) → Nat → Nat
  | 0, index => index
  | fuel + 1, index =>
    if (p.entry index).parent = index then index else rootWithin p fuel (p.entry index).parent

/-- The survivor that an entry was merged into. A way to it passes no entry twice. -/
def root (p : Partition β) (index : Nat) : Nat :=
  p.rootWithin p.entries.length index

/-- The survivor of a subgraph. -/
def find (p : Partition β) (id : SubgraphId) : SubgraphId :=
  ⟨p.root id.index⟩

/-- The subgraph of a node, if it was ever connected. -/
def of (p : Partition β) (node : NodeId) : Option SubgraphId :=
  (p.membership node).map fun index ↦ ⟨p.root index⟩

def survivor (p : Partition β) (id : SubgraphId) : Entry β :=
  p.entry (p.root id.index)

def nodes (p : Partition β) (id : SubgraphId) : List NodeId :=
  (p.survivor id).nodes

def edges (p : Partition β) (id : SubgraphId) : List Edge :=
  (p.survivor id).edges

def inbound (p : Partition β) (id : SubgraphId) : Option QueueId :=
  (p.survivor id).inbound

/-- The surviving subgraphs that have nodes, in the order of their making. -/
def roots (p : Partition β) : List SubgraphId :=
  ((List.range p.entries.length).filter fun index ↦
    (p.entry index).parent == index && !(p.entry index).nodes.isEmpty).map (⟨·⟩)

def modify (p : Partition β) (index : Nat) (change : Entry β → Entry β) : Partition β :=
  { p with entries := p.entries.modify index change }

def create (p : Partition β) : SubgraphId × Partition β :=
  (⟨p.entries.length⟩, { p with entries := p.entries ++ [.root p.entries.length] })

/-- Records that some nodes belong to an entry. -/
def place (p : Partition β) (nodes : List NodeId) (index : Nat) : Partition β :=
  { p with membership := fun node ↦ if node ∈ nodes then some index else p.membership node }

def assign (p : Partition β) (node : NodeId) (id : SubgraphId) : Partition β :=
  let index := p.root id.index
  (p.place [node] index).modify index fun e ↦ { e with nodes := e.nodes ++ [node] }

def addEdge (p : Partition β) (id : SubgraphId) (edge : Edge) : Partition β :=
  p.modify (p.root id.index) fun e ↦ { e with edges := addUnlessThere e.edges edge }

/-- Makes a queue the one that feeds a subgraph. -/
def setInbound (p : Partition β) (id : SubgraphId) (queue : QueueId) : Partition β :=
  p.modify (p.root id.index) fun e ↦ { e with inbound := some queue }

/-- Records a queue between two subgraphs. -/
def link (p : Partition β) (producer consumer : SubgraphId) : Partition β :=
  { p with links := p.links ++ [(producer.index, consumer.index)] }

/-- Whether a queue leads from one subgraph to the other, in either direction. -/
def linked (p : Partition β) (a b : SubgraphId) : Bool :=
  let (a, b) := (p.root a.index, p.root b.index)
  p.links.any fun (producer, consumer) ↦
    let (producer, consumer) := (p.root producer, p.root consumer)
    (producer == a && consumer == b) || (producer == b && consumer == a)

/-- Whether two subgraphs may grow together. -/
def checkMerge (p : Partition β) (a b : SubgraphId) : Except TopologyFault Unit :=
  let (a, b) := (p.find a, p.find b)
  if a = b then .ok ()
  else if (p.inbound a).isSome && (p.inbound b).isSome then .error (.mergeInboundQueues a b)
  else if p.linked a b then .error (.queueLoop a b)
  else .ok ()

/-- Puts a batch behind those that wait for an entry. -/
def send (p : Partition β) (id : SubgraphId) (batch : β) : Partition β :=
  p.modify id.index fun e ↦ { e with pending := e.pending ++ [batch] }

/-- Takes the batches that wait for an entry. -/
def receive (p : Partition β) (id : SubgraphId) : List β × Partition β :=
  ((p.entry id.index).pending, p.modify id.index fun e ↦ { e with pending := [] })

/-- Puts the batches that wait for a merged entry behind those of the survivor. -/
def forward (p : Partition β) (index : Nat) : Partition β :=
  let target := p.root index
  if target = index then p
  else
    let (batches, p) := p.receive ⟨index⟩
    p.modify target fun e ↦ { e with pending := e.pending ++ batches }

/-- Forwards the batches of every merged entry, from the first entry to the last. -/
def forwardAll (p : Partition β) : Partition β :=
  (List.range p.entries.length).foldl forward p

/-- What a survivor becomes when it takes over a merged entry. -/
def Entry.absorb (survivor merged : Entry β) : Entry β :=
  { survivor with
    nodes := survivor.nodes ++ merged.nodes
    edges := merged.edges.foldl addUnlessThere survivor.edges
    inbound := survivor.inbound.or merged.inbound }

def merge (p : Partition β) (winner loser : Nat) : Partition β :=
  let merged := p.entry loser
  let p := p.place merged.nodes winner
  let p := p.modify winner (·.absorb merged)
  let p := p.modify loser fun e ↦
    { e with parent := winner, nodes := [], edges := [], inbound := none }
  p.forward loser

/-- Makes two subgraphs one: the survivor, which is the one with more nodes, and the first of
two equal ones. -/
def union (p : Partition β) (a b : SubgraphId) : SubgraphId × Partition β :=
  let (a, b) := (p.root a.index, p.root b.index)
  if a = b then (⟨a⟩, p)
  else if (p.entry b).nodes.length ≤ (p.entry a).nodes.length then (⟨a⟩, p.merge a b)
  else (⟨b⟩, p.merge b a)

/-- Puts two nodes into one subgraph, with the edge between them. -/
def join (p : Partition β) (source target : NodeId) : Partition β :=
  let (id, p) : SubgraphId × Partition β :=
    match p.of source, p.of target with
    | some a, some b => p.union a b
    | some a, none => (a, p.assign target a)
    | none, some b => (b, p.assign source b)
    | none, none =>
      let (id, p) := p.create
      (id, (p.assign source id).assign target id)
  p.addEdge id (source, target)

end Partition

end SignalFlow
