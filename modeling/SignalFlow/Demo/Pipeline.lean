import SignalFlow.Demo.Node
import SignalFlow.Graph.Controls
import SignalFlow.Graph.Execution
import SignalFlow.Graph.Wiring

/-!
# The pipeline of the demonstration

A tone source feeds a gain stage by a queue, and the stage feeds a meter. The frequency and
the gain are bound to names, with the ranges of a schema.
-/

namespace SignalFlow.Demo

open SignalFlow.Numeric SignalFlow.Control

/-- A schema with the controls of the demonstration that it does not name itself. -/
def schema (configured : Schema) (sampleRate : UInt32) : Schema :=
  (controls sampleRate).foldl (fun schema (name, spec) ↦
    if schema.contains name then schema else schema.insert name spec) configured

/-- A graph with the demonstration, and its meter. -/
structure Pipeline where
  graph : Graph Node Empty
  source : Tone
  meter : NodeId

namespace Pipeline

def ofOptions (options : Options) (schema : Schema) (sampleRate : UInt32) (blockSize : Nat)
    (freq : Double) : Except GraphError Pipeline := do
  let tone := Tone.ofRate sampleRate blockSize
  let (source, g) := (Graph.empty options).add (Tone.ports freq) (Node.tone tone)
  let (gain, g) := g.add (Gain.ports (Binary.ofNat binary64 1)) Node.gain
  let (meter, g) := g.add Meter.ports (Node.meter .zero)
  let (_, g) ← g.connectQueued source gain
  let g ← g.connect gain meter
  let g ← g.bind ⟨source, Tone.freqPort⟩ "freq" .double (schema.validator? "freq" .double)
  let g ← g.bind ⟨gain, Gain.gainPort⟩ "gain" .double (schema.validator? "gain" .double)
  return ⟨g, tone, meter⟩

def reading (p : Pipeline) : Meter :=
  match p.graph.slot? p.meter with
  | some ⟨_, ⟨_, .custom (.meter meter)⟩, _⟩ => meter
  | _ => .zero

/-- Starts the pipeline and posts updates to it. -/
def launch (p : Pipeline) (spawner : Spawner) (updates : Updates) :
    Except (StartFault Empty) Pipeline := do
  let (graph, started) := p.graph.start spawner
  let _ ← started
  let (graph, posted) := graph.post updates
  let _ ← posted.mapError (.failed · [] [])
  return { p with graph }

def step (p : Pipeline) : Pipeline :=
  let (graph, _) := Graph.eachRun (fun g run ↦ let (g, reports, _) := g.iterate run; (g, reports))
    (p.graph.runs.getD []) p.graph
  { p with graph }

def halt (p : Pipeline) : Pipeline :=
  { p with graph := p.graph.stop.1 }

end Pipeline

end SignalFlow.Demo
