import SignalFlow.Node.Act

/-!
# Nodes

A node is called in four phases: once at the start of a run, twice in every cycle, and once at
the end. How it behaves is given by its state; each call leaves a new state behind, also when
it ends with a fault. Writers and readers of queues stand between subgraphs and are nodes like
any other, but the library brings their behaviour along.
-/

namespace SignalFlow

/-- The occasions on which a node is called. -/
inductive Phase where
  | init
  | reset
  | process
  | destroy
deriving DecidableEq, Repr, Inhabited

/-- The phases in the order of a node's life. -/
def Phase.all : List Phase :=
  [.init, .reset, .process, .destroy]

def Phase.name : Phase → String
  | .init => "init"
  | .reset => "reset"
  | .process => "process"
  | .destroy => "destroy"

/-- How nodes with a state of type `σ` behave. A call is told the name of the thread that makes
it, unless the caller of the library makes it. -/
class Behaviour (σ : Type) (ω : outParam Type) where
  /-- What a node is called in reports. -/
  name : σ → String
  /-- What comes of asking a node for its name on a thread of a graph. -/
  naming : (thread : String) → σ → Reaction ω
  /-- A call: how it ends, and the state that it leaves. -/
  perform : Phase → (thread : Option String) → σ → Act ω (Except Stop Unit × σ)

/-- A part of a call that knows the state of its node and may end the call. -/
abbrev NodeProgram (σ ω : Type) := ExceptT Stop (StateT σ (Act ω))

namespace NodeProgram

variable {σ ω α : Type}

/-- A part of a call that does not use the state. -/
def act (a : Act ω α) : NodeProgram σ ω α :=
  ExceptT.lift (StateT.lift a)

/-- Goes on with a result, or ends the call with its fault. -/
def need : Except PortFault α → NodeProgram σ ω α
  | .ok a => pure a
  | .error fault => throw (.fault (.port fault))

def read (port : Nat) : NodeProgram σ ω (Except PortFault Datum) :=
  act (.read port .done)

def hasData (port : Nat) : NodeProgram σ ω (Except PortFault Bool) :=
  act (.hasData port .done)

/-- Stores a value in an output, or ends the call. -/
def store (port : Nat) (value : Datum) : NodeProgram σ ω Unit := do
  need (← act (.store port value .done))

def clear (port : Nat) : NodeProgram σ ω Unit :=
  act (.clear port .done)

def clearAll : NodeProgram σ ω Unit :=
  act (.clearAll .done)

def value (port : Nat) : NodeProgram σ ω Control.Value := do
  need (← act (.value port .done))

/-- Sets a control, or ends the call. -/
def set (port : Nat) (value : Control.Value) : NodeProgram σ ω Unit := do
  match ← act (.set port value .done) with
  | .ok () => return
  | .error stop => throw stop

def offer (queue : QueueId) (item : Datum) : NodeProgram σ ω Bool :=
  act (.offer queue item .done)

def take (queue : QueueId) : NodeProgram σ ω (Option Datum) :=
  act (.take queue .done)

def look (queue : QueueId) : NodeProgram σ ω QueueShape :=
  act (.look queue .done)

def report (notice : Notice ω) : NodeProgram σ ω Unit :=
  act (.report notice .done)

end NodeProgram

namespace Adapter

variable {σ ω : Type}

/-- The ports of a writer: one for single items, and one for batches. -/
def writerPorts (type : DataType) : List (PortSpec ω) :=
  [.input type, .input (.list type)]

def readerPorts (type : DataType) : List (PortSpec ω) :=
  [.output type]

/-- Offers items to a queue until it refuses one; that one and all behind it are dropped. -/
def offerAll (queue : QueueId) : List Datum → NodeProgram σ ω Unit
  | [] => return
  | item :: rest => do
    if ← .offer queue item then offerAll queue rest
    else .report (.queueFull (← .look queue) (some (rest.length + 1)))

/-- Puts what the inputs hold into a queue: the single item, then the batch. -/
def write (queue : QueueId) : NodeProgram σ ω Unit := do
  if let .ok item ← .read 0 then
    if !(← .offer queue item) then
      .report (.queueFull (← .look queue) none)
  if let .ok (.list items) ← .read 1 then
    offerAll queue items

/-- Publishes the oldest item of a queue. -/
def publish (queue : QueueId) : NodeProgram σ ω Unit := do
  match ← .take queue with
  | some item => .store 0 item
  | none => .report (.queueEmpty (← .look queue))

end Adapter

/-- What a node is there for: what its state says, or to join a subgraph to a queue. -/
inductive Role (σ : Type) where
  | custom (state : σ)
  | writer (queue : QueueId)
  | reader (queue : QueueId)

namespace Role

variable {σ ω : Type}

/-- Whether a node was put in by the graph itself. -/
def isHidden : Role σ → Bool
  | .custom _ => false
  | .writer _ | .reader _ => true

/-- A call of a program that has no state. -/
def stateless (role : Role σ) (program : NodeProgram Unit ω Unit) :
    Act ω (Except Stop Unit × Role σ) := do
  let (ending, ()) ← program.run.run ()
  return (ending, role)

variable [Behaviour σ ω]

def name : Role σ → String
  | .custom state => Behaviour.name state
  | .writer _ => "queue-writer"
  | .reader _ => "queue-reader"

def naming (thread : String) : Role σ → Reaction ω
  | .custom state => Behaviour.naming thread state
  | .writer _ | .reader _ => ⟨[], none⟩

def perform (phase : Phase) (thread : Option String) (role : Role σ) :
    Act ω (Except Stop Unit × Role σ) :=
  match role, phase with
  | .custom state, _ => do
    let (ending, state) ← Behaviour.perform phase thread state
    return (ending, .custom state)
  | .writer queue, .process => role.stateless (Adapter.write queue)
  | .reader queue, .process => role.stateless (Adapter.publish queue)
  | _, .reset => role.stateless .clearAll
  | _, .init | _, .destroy => role.stateless (return)

end Role

/-- A node of a graph. Its inputs are attached to outputs of other nodes. -/
structure Node (σ ω : Type) where
  ports : List (Port PortRef ω)
  role : Role σ

namespace Node

variable {σ ω : Type}

/-- A node with ports that are not used yet. -/
def ofSpecs (ports : List (PortSpec ω)) (role : Role σ) : Node σ ω where
  ports := ports.map PortSpec.port
  role := role

/-- The index of the first port of a kind. -/
def firstPort (n : Node σ ω) (kind : PortKind) : Except PortFault Nat :=
  match n.ports.findIdx? (·.kind = kind) with
  | some index => .ok index
  | none => .error (.noPortOfKind kind)

def portKind (n : Node σ ω) (index : Nat) : Except PortFault PortKind :=
  match n.ports[index]? with
  | some p => .ok p.kind
  | none => .error (.noSuchPort index)

end Node

end SignalFlow
