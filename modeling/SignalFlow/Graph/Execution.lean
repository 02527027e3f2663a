import SignalFlow.Graph.Basic

/-!
# Execution

A graph that is started runs each of its subgraphs on a thread. All nodes of a subgraph are
initialised; then the thread iterates: it applies the batches that wait for its controls, and
unless it is fed by a queue that is empty it executes a cycle, which resets all nodes and then
processes all nodes in their order. When the graph is stopped, all nodes are destroyed.

A fault of a node is reported and the next node is called. To report it the node is asked for
its name; if that gives up, the thread dies and the nodes of the subgraph are lost.

The threads come from the system, which may refuse them. A start that does not get all of them
takes back what it has done.

What the threads do is given here iteration by iteration. Subgraphs share nothing but queues,
so any way to run them side by side is a way to put their iterations in a row.
-/

namespace SignalFlow

/-- What a run reports. -/
inductive Report (ω : Type) where
  | notice (notice : Notice ω)
  | fault (node : NodeId) (name : String) (phase : Phase) (fault : NodeFault)
  | panicked (node : NodeId) (name : String) (phase : Phase) (panic : Control.Panic)
  | applied (control : String) (value : Control.Value)
  | rejected (control : String) (node : NodeId) (port : Nat) (fault : Control.Fault)
  | unwound

/-- What became of an iteration. -/
inductive Iteration where
  | cycle
  | idle
  | died
  | dead
deriving DecidableEq, Repr

def Iteration.name : Iteration → String
  | .cycle => "cycle"
  | .idle => "idle"
  | .died => "died"
  | .dead => "dead"

abbrev RunReports (ω : Type) := List (SubgraphId × List (Report ω))

/-- Reports of the same subgraphs one behind the other. -/
def RunReports.append {ω : Type} (a b : RunReports ω) : RunReports ω :=
  (a.zip b).map fun (x, y) ↦ (x.1, x.2 ++ y.2)

/-- What the system says when it is asked for the thread of a subgraph: the reason if it refuses
it. -/
structure Spawner where
  refusal : SubgraphId → Option String

namespace Spawner

def willing : Spawner :=
  ⟨fun _ ↦ none⟩

def grants (s : Spawner) (id : SubgraphId) : Bool :=
  (s.refusal id).isNone

end Spawner

/-- What comes of a start that does not succeed: it fails, it panics, or it never returns. Threads
that were there have reported something, and some subgraphs may have lost theirs. -/
inductive StartFault (ω : Type) where
  | failed (error : GraphError) (reports : RunReports ω) (lost : List SubgraphId)
  | panicked (panic : Control.Panic)
  | stuck (reports : RunReports ω) (lost : List SubgraphId)

/-- The subgraphs that have lost their thread. -/
def StartFault.lost {ω : Type} : StartFault ω → List SubgraphId
  | .failed _ _ lost => lost
  | .panicked _ => []
  | .stuck _ lost => lost

namespace Graph

variable {σ ω : Type}

/-- Calls a node, which reaches its own ports and the queues. -/
def call [Behaviour σ ω] (g : Graph σ ω) (phase : Phase) (thread : Option String)
    (id : NodeId) : Graph σ ω × Except Stop Unit × List (Notice ω) :=
  match g.slot? id with
  | none => (g, .ok (), [])
  | some slot =>
    let ((ending, role), scene, notices) :=
      (slot.node.role.perform phase thread).run g.published ⟨slot.node.ports, g.queues⟩
    let g := g.modifyNode id fun _ ↦ ⟨scene.ports, role⟩
    ({ g with queues := scene.queues }, ending, notices)

/-- Reports how a call ended: the reports, and whether the thread goes on. -/
def reportEnding [Behaviour σ ω] (g : Graph σ ω) (phase : Phase) (thread : String)
    (id : NodeId) : Except Stop Unit → List (Report ω) × Bool
  | .ok () => ([], true)
  | .error stop =>
    match g.slot? id with
    | none => ([], true)
    | some slot =>
      let role := slot.node.role
      let reaction := role.naming thread
      let named : List (Report ω) := reaction.reports.map (.notice <| .event ·)
      match reaction.panic with
      | some _ => (named, false)
      | none =>
        let report := match stop with
          | .fault fault => .fault id role.name phase fault
          | .panic panic => .panicked id role.name phase panic
        (named ++ [report], true)

/-- Calls nodes one after the other: the graph behind, the reports, and whether the thread is
alive. -/
def callAll [Behaviour σ ω] (phase : Phase) (thread : String) :
    List NodeId → Graph σ ω → Graph σ ω × List (Report ω) × Bool
  | [], g => (g, [], true)
  | id :: rest, g =>
    let (g, ending, notices) := g.call phase (some thread) id
    let (ended, alive) := g.reportEnding phase thread id ending
    let reports := notices.map .notice ++ ended
    if alive then
      let (g, more, alive) := callAll phase thread rest g
      (g, reports ++ more, alive)
    else (g, reports, false)

def threadName (g : Graph σ ω) (id : SubgraphId) : String :=
  g.options.threadName ++ "-" ++ toString id.index

/-- The run of a subgraph, if the graph runs. -/
def run? (g : Graph σ ω) (id : SubgraphId) : Option Run :=
  (g.runs.getD []).find? (·.subgraph == id)

/-- Records that the thread of a subgraph has died. -/
def bury (g : Graph σ ω) (id : SubgraphId) : Graph σ ω :=
  { g with runs := g.runs.map (·.map fun r ↦ if r.subgraph = id then { r with alive := false }
    else r) }

/-- Applies a value to the control that it is bound for, if the node belongs to the run. -/
def deliver (g : Graph σ ω) (run : Run) (d : Delivery) : Graph σ ω × List (Report ω) :=
  let refuse (fault : Control.Fault) : Report ω :=
    .rejected d.name d.binding.node d.binding.port fault
  match if d.binding.node ∈ run.order then g.slot? d.binding.node else none with
  | none => (g, [refuse (.foreignNode d.binding.node)])
  | some slot =>
    let (ports, events, result) := d.binding.apply slot.node.ports d.value
    let g := g.modifyNode d.binding.node ({ · with ports })
    let report := match result with
      | .ok () => .applied d.name d.value
      | .error fault => refuse fault
    (g, events.map (.notice <| .event ·) ++ [report])

/-- Applies values in their order. -/
def deliverAll (run : Run) : List Delivery → Graph σ ω → Graph σ ω × List (Report ω)
  | [], g => (g, [])
  | d :: rest, g =>
    let (g, reports) := g.deliver run d
    let (g, more) := deliverAll run rest g
    (g, reports ++ more)

def drain (g : Graph σ ω) (run : Run) : Graph σ ω × List (Report ω) :=
  let (batches, partition) := g.partition.receive run.subgraph
  deliverAll run batches.flatten { g with partition }

/-- Resets all nodes of a subgraph and processes all of them. -/
def cycle [Behaviour σ ω] (g : Graph σ ω) (run : Run) : Graph σ ω × List (Report ω) × Bool :=
  let thread := g.threadName run.subgraph
  let (g, reset, alive) := callAll .reset thread run.order g
  if alive then
    let (g, processed, alive) := callAll .process thread run.order g
    (g, reset ++ processed, alive)
  else (g, reset, false)

/-- Whether a subgraph is fed by a queue that is empty. -/
def isStarved (g : Graph σ ω) (id : SubgraphId) : Bool :=
  match g.partition.inbound id with
  | none => false
  | some queue => (g.queueShape queue).size == 0

/-- The part of an iteration behind the controls: a cycle if there is data. -/
def advance [Behaviour σ ω] (g : Graph σ ω) (run : Run) :
    Graph σ ω × List (Report ω) × Iteration :=
  if !run.alive then (g, [], .dead)
  else if g.isStarved run.subgraph then (g, [], .idle)
  else
    let (g, reports, alive) := g.cycle run
    if alive then (g, reports, .cycle) else (g.bury run.subgraph, reports ++ [.unwound], .died)

def iterate [Behaviour σ ω] (g : Graph σ ω) (run : Run) :
    Graph σ ω × List (Report ω) × Iteration :=
  if !run.alive then (g, [], .dead)
  else
    let (g, applied) := g.drain run
    let (g, reports, iteration) := g.advance run
    (g, applied ++ reports, iteration)

/-- The run that a subgraph is to have. It needs an order of its nodes, and all of them. -/
def plan (g : Graph σ ω) (id : SubgraphId) : Except GraphError Run :=
  match Schedule.order (g.partition.nodes id) (g.partition.edges id) with
  | .error remaining => .error (.cycleTopology id remaining)
  | .ok order =>
    match order.find? fun node ↦ !(g.slot? node).any (·.available) with
    | some node => .error (.nodeUnavailable node)
    | none => .ok ⟨id, order, true⟩

/-- Marks nodes as at home or not. -/
def setAvailable (g : Graph σ ω) (ids : List NodeId) (available : Bool) : Graph σ ω :=
  ids.foldl (fun g id ↦ { g with slots := g.slots.modify id.index ({ · with available }) }) g

/-- Calls all nodes of a run in one phase, and records if that kills the thread. -/
def callRun [Behaviour σ ω] (phase : Phase) (g : Graph σ ω) (run : Run) :
    Graph σ ω × List (Report ω) :=
  let (g, reports, alive) := callAll phase (g.threadName run.subgraph) run.order g
  (if alive then g else g.bury run.subgraph, reports)

/-- Does something with every run, in the order of the subgraphs. -/
def eachRun (act : Graph σ ω → Run → Graph σ ω × List (Report ω)) :
    List Run → Graph σ ω → Graph σ ω × RunReports ω
  | [], g => (g, [])
  | run :: rest, g =>
    let (g, reports) := act g run
    let (g, more) := eachRun act rest g
    (g, (run.subgraph, reports) :: more)

/-- Applies all batches that wait for subgraphs whose thread lives. -/
def drainAll (g : Graph σ ω) : Graph σ ω × RunReports ω :=
  eachRun (fun g run ↦ if run.alive then g.drain run else (g, [])) (g.runs.getD []) g

/-- Does for every run what is left of an iteration behind the controls. -/
def advanceAll [Behaviour σ ω] (g : Graph σ ω) : Graph σ ω × RunReports ω :=
  eachRun (fun g run ↦ ((g.advance run).1, (g.advance run).2.1)) (g.runs.getD []) g

/-- The subgraphs whose thread has died. -/
def dead (g : Graph σ ω) : List SubgraphId :=
  ((g.runs.getD []).filter (!·.alive)).map (·.subgraph)

/-- Stops the graph: the threads that live destroy their nodes and give them back. The result
tells what they report, and which subgraphs lost their thread. -/
def stop [Behaviour σ ω] (g : Graph σ ω) : Graph σ ω × RunReports ω × List SubgraphId :=
  let destroy (g : Graph σ ω) (run : Run) : Graph σ ω × List (Report ω) :=
    if run.alive then callRun .destroy g run else (g, [])
  let (g, reports) := eachRun destroy (g.runs.getD []) g
  let home := (g.runs.getD []).filter (·.alive)
  let stopped := g.setAvailable (home.flatMap (·.order)) true
  ({ stopped with runs := none }, reports, g.dead)

/-- Hands the nodes of runs over to threads, which initialise them. -/
def launch [Behaviour σ ω] (g : Graph σ ω) (runs : List Run) : Graph σ ω × RunReports ω :=
  let g := g.setAvailable (runs.flatMap (·.order)) false
  eachRun (callRun .init) runs { g with runs := some runs }

/-- What the system does when it is to give a thread a name with a zero in it. -/
def zeroPanic (name : String) : Control.Panic :=
  let bytes := name.toUTF8.toList.map (·.toNat)
  ⟨some ("thread name may not contain interior null bytes: NulError(" ++
    toString (bytes.idxOf 0) ++ ", " ++ toString bytes ++ ")")⟩

/-- Starts the graph: every subgraph gets a thread, which initialises its nodes. A start that
cannot be planned only moves batches of merged subgraphs to where they belong. If the system refuses
a subgraph its thread, the nodes of this subgraph and of all behind it stay at home, and the threads
that are there already end. If a thread dies before it has initialised its nodes, the start waits
for it forever, and if the names of threads have a zero in them it panics; both ways the nodes that
threads have or were to get do not come back. -/
def start [Behaviour σ ω] (g : Graph σ ω) (spawner : Spawner) :
    Graph σ ω × Except (StartFault ω) (RunReports ω) :=
  if g.isRunning then (g, .error (.failed .alreadyRunning [] []))
  else
    let g := { g with partition := g.partition.forwardAll }
    if g.subgraphs.isEmpty then (g, .error (.failed .emptyGraph [] []))
    else
      match g.subgraphs.mapM g.plan with
      | .error e => (g, .error (.failed e [] []))
      | .ok runs =>
        -- all names begin alike, so it is the first thread that cannot be named
        if '\x00' ∈ g.options.threadName.toList then
          (g.setAvailable (runs.flatMap (·.order)) false,
            .error (.panicked (zeroPanic (g.threadName (g.subgraphs.headD ⟨0⟩)))))
        else
          let (g, reports) := g.launch (runs.takeWhile fun run ↦ spawner.grants run.subgraph)
          if g.dead ≠ [] then ({ g with runs := none }, .error (.stuck reports g.dead))
          else
            match runs.findSome? fun run ↦ spawner.refusal run.subgraph with
            | none => (g, .ok reports)
            | some reason =>
              let (g, destroyed, lost) := g.stop
              (g, .error (.failed (.spawn reason) (reports.append destroyed) lost))

end Graph

end SignalFlow
