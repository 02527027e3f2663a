import SignalFlow.Port
import SignalFlow.Queue

/-!
# What nodes do

One call of a node is a row of steps. A step uses a port of the node or a queue that the node
knows, or reports something; what comes of it decides how the call goes on. A node reaches
nothing else, so that a call can change its own outputs and controls and the queues, and no
other node.

`Act.run` carries a call out on the ports of a node.
-/

namespace SignalFlow

/-- Why a call of a node did not succeed. -/
inductive NodeFault where
  | port (fault : PortFault)
  | control (fault : Control.Fault)
  | failed (message : String)
deriving DecidableEq, Repr

def NodeFault.text : NodeFault → String
  | .port fault => fault.text
  | .control fault => fault.text
  | .failed message => message

/-- How a call ends before its end: with a fault, or by giving up. -/
inductive Stop where
  | fault (fault : NodeFault)
  | panic (panic : Control.Panic)
deriving DecidableEq, Repr

/-- The text of an end before the end. -/
def Stop.text : Stop → String
  | .fault f => f.text
  | .panic p => "panicked: " ++ p.text

/-- What is reported during a call: an event of the node, a full queue with the number of
items that are dropped from a batch, or an empty queue. -/
inductive Notice (ω : Type) where
  | event (event : ω)
  | queueFull (shape : QueueShape) (dropped : Option Nat)
  | queueEmpty (shape : QueueShape)

/-- A row of steps that ends in a result. -/
inductive Act (ω α : Type) where
  | done (result : α)
  | read (port : Nat) (next : Except PortFault Datum → Act ω α)
  | hasData (port : Nat) (next : Except PortFault Bool → Act ω α)
  | store (port : Nat) (value : Datum) (next : Except PortFault Unit → Act ω α)
  | clear (port : Nat) (next : Unit → Act ω α)
  | clearAll (next : Unit → Act ω α)
  | value (port : Nat) (next : Except PortFault Control.Value → Act ω α)
  | set (port : Nat) (value : Control.Value) (next : Except Stop Unit → Act ω α)
  | offer (queue : QueueId) (item : Datum) (next : Bool → Act ω α)
  | take (queue : QueueId) (next : Option Datum → Act ω α)
  | look (queue : QueueId) (next : QueueShape → Act ω α)
  | report (notice : Notice ω) (next : Unit → Act ω α)

namespace Act

variable {ω α β : Type}

/-- Goes on with what the result says. -/
def andThen (more : α → Act ω β) : Act ω α → Act ω β
  | done result => more result
  | read port next => read port fun r ↦ (next r).andThen more
  | hasData port next => hasData port fun r ↦ (next r).andThen more
  | store port datum next => store port datum fun r ↦ (next r).andThen more
  | clear port next => clear port fun r ↦ (next r).andThen more
  | clearAll next => clearAll fun r ↦ (next r).andThen more
  | value port next => value port fun r ↦ (next r).andThen more
  | set port v next => set port v fun r ↦ (next r).andThen more
  | offer queue item next => offer queue item fun r ↦ (next r).andThen more
  | take queue next => take queue fun r ↦ (next r).andThen more
  | look queue next => look queue fun r ↦ (next r).andThen more
  | report notice next => report notice fun r ↦ (next r).andThen more

instance : Monad (Act ω) where
  pure := done
  bind act more := act.andThen more

end Act

/-- What a call works on: the ports of the node, and the queues. -/
structure Scene (κ ω : Type) where
  ports : List (Port κ ω)
  queues : List DataQueue

namespace Scene

variable {κ ω : Type}

/-- The port at an index, which must be of the wanted kind. -/
def port (scene : Scene κ ω) (index : Nat) : Except PortFault (Port κ ω) :=
  match scene.ports[index]? with
  | none => .error (.noSuchPort index)
  | some p => .ok p

def input (scene : Scene κ ω) (index : Nat) : Except PortFault (Input κ) := do
  match ← scene.port index with
  | .input i => .ok i
  | p => .error (.wrongKind .input p.kind)

def output (scene : Scene κ ω) (index : Nat) : Except PortFault Output := do
  match ← scene.port index with
  | .output o => .ok o
  | p => .error (.wrongKind .output p.kind)

def control (scene : Scene κ ω) (index : Nat) : Except PortFault (ControlPort ω) := do
  match ← scene.port index with
  | .control c => .ok c
  | p => .error (.wrongKind .control p.kind)

/-- The scene with another port at an index. -/
def setPort (scene : Scene κ ω) (index : Nat) (p : Port κ ω) : Scene κ ω :=
  { scene with ports := scene.ports.set index p }

def setQueue (scene : Scene κ ω) (id : QueueId) (queue : Queue Datum) : Scene κ ω :=
  { scene with queues := scene.queues.modify id.index ({ · with queue }) }

def store (scene : Scene κ ω) (index : Nat) (value : Datum) : Except PortFault (Scene κ ω) := do
  let o ← scene.output index
  return scene.setPort index (.output (← o.store value))

def clear (scene : Scene κ ω) (index : Nat) : Scene κ ω :=
  { scene with ports := scene.ports.modify index Port.clear }

def clearAll (scene : Scene κ ω) : Scene κ ω :=
  { scene with ports := scene.ports.map Port.clear }

/-- Converts a value and sets a control to it: the scene behind, what the observer reports, and
whether the call can go on. -/
def set (scene : Scene κ ω) (index : Nat) (value : Control.Value) :
    Scene κ ω × List ω × Except Stop Unit :=
  match scene.control index with
  | .error fault => (scene, [], .error (.fault (.port fault)))
  | .ok c =>
    match c.storage.ofValue value with
    | .error fault => (scene, [], .error (.fault (.control fault)))
    | .ok data =>
      let (c, reaction) := c.set data
      (scene.setPort index (.control c), reaction.reports,
        match reaction.panic with
        | none => .ok ()
        | some panic => .error (.panic panic))

/-- Puts an item into a queue if there is room. -/
def offer (scene : Scene κ ω) (id : QueueId) (item : Datum) : Scene κ ω × Bool :=
  match scene.queues[id.index]?.bind (·.queue.tryPush? item) with
  | none => (scene, false)
  | some queue => (scene.setQueue id queue, true)

def take (scene : Scene κ ω) (id : QueueId) : Scene κ ω × Option Datum :=
  match scene.queues[id.index]? with
  | none => (scene, none)
  | some q => (scene.setQueue id q.queue.pop.2, q.queue.pop.1)

def shape (scene : Scene κ ω) (id : QueueId) : QueueShape :=
  (scene.queues[id.index]?.getD default).shape

end Scene

namespace Act

variable {κ ω α : Type}

/-- Carries a call out, `published` being what the outputs of all nodes hold: the result, the
scene behind, and the reports in their order. -/
def run (published : κ → Option Datum) :
    Act ω α → Scene κ ω → α × Scene κ ω × List (Notice ω)
  | done result, scene => (result, scene, [])
  | read port next, scene =>
    (next ((scene.input port).bind (·.read published))).run published scene
  | hasData port next, scene =>
    (next ((scene.input port).bind (·.hasData published))).run published scene
  | store port datum next, scene =>
    match scene.store port datum with
    | .error fault => (next (.error fault)).run published scene
    | .ok scene => (next (.ok ())).run published scene
  | clear port next, scene => (next ()).run published (scene.clear port)
  | clearAll next, scene => (next ()).run published scene.clearAll
  | value port next, scene =>
    (next ((scene.control port).map ControlPort.value)).run published scene
  | set port v next, scene =>
    let (scene, events, result) := scene.set port v
    let (a, scene, notices) := (next result).run published scene
    (a, scene, events.map .event ++ notices)
  | offer queue item next, scene =>
    let (scene, accepted) := scene.offer queue item
    (next accepted).run published scene
  | take queue next, scene =>
    let (scene, item) := scene.take queue
    (next item).run published scene
  | look queue next, scene => (next (scene.shape queue)).run published scene
  | report notice next, scene =>
    let (a, scene, notices) := (next ()).run published scene
    (a, scene, notice :: notices)

end Act

end SignalFlow
