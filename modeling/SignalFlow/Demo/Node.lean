import SignalFlow.Control.Schema
import SignalFlow.Node.Basic

/-!
# The nodes of the demonstration

A source makes the samples of a tone in blocks, a stage multiplies them by a gain, and a meter
measures how loud each block is. Tone and gain are controls.
-/

namespace SignalFlow.Demo

open SignalFlow.Numeric SignalFlow.Control

def samples : Datum → List Single
  | .list items => items.filterMap fun
    | .single x => some x
    | _ => none
  | _ => []

def ofSamples (block : List Single) : Datum :=
  .list (block.map .single)

/-- The number of a control that holds one. -/
def number : Value → Double
  | .double x => x
  | .bool _ | .uint _ | .text _ => default

def turn : Double :=
  Binary.ofBits binary64 0x401921FB54442D18

def half (f : Format) : Binary f :=
  Binary.ofRatio f false 1 2

/-- A source of a tone: the number of samples in a second and in a block, and the angle that
the tone has come to. -/
structure Tone where
  sampleRate : Double
  blockSize : Nat
  phase : Double
deriving Inhabited

namespace Tone

/-- A source before its first block. A rate of zero counts as one. -/
def ofRate (sampleRate : UInt32) (blockSize : Nat) : Tone where
  sampleRate := Binary.ofNat binary64 (max sampleRate.toNat 1)
  blockSize := blockSize
  phase := Binary.zero binary64 false

def freqPort : Nat := 1

def ports {ω : Type} (freq : Double) : List (PortSpec ω) :=
  [.output .block, .control .double freq none]

/-- The samples of a block, the sine of an angle that grows by `step` and is kept within a
turn, and the angle behind them. -/
def render (step : Double) : Nat → Double → List Single × Double
  | 0, phase => ([], phase)
  | n + 1, phase =>
    let sample := (Double.sine phase).convert binary32 * half binary32
    let (block, last) := render step n ((phase + step) % turn)
    (sample :: block, last)

def period (tone : Tone) : Double :=
  Binary.ofNat binary64 tone.blockSize / tone.sampleRate

/-- Whether blocks can be paced: the seconds of one fit 64 bits. -/
def canPace (tone : Tone) : Bool :=
  tone.period.wholePart.any (· < UInt64.size)

def init {ω : Type} : NodeProgram Tone ω Unit := do
  let tone ← get
  if tone.blockSize = 0 then throw (.fault (.failed "block size must be non-zero"))
  if !tone.canPace then
    throw (.fault (.failed
      ("block of " ++ toString tone.blockSize ++ " samples is too long to pace")))
  set { tone with phase := Binary.zero binary64 false }

def process {ω : Type} : NodeProgram Tone ω Unit := do
  let tone ← get
  let freq := number (← .value freqPort)
  let (block, phase) := render (turn * freq / tone.sampleRate) tone.blockSize tone.phase
  set { tone with phase }
  .store 0 (ofSamples block)

end Tone

namespace Gain

def gainPort : Nat := 2

def ports {ω : Type} (gain : Double) : List (PortSpec ω) :=
  [.input .block, .output .block, .control .double gain none]

def process {σ ω : Type} : NodeProgram σ ω Unit := do
  match ← .read 0 with
  | .error .noData => return
  | block =>
    let block ← .need block
    let gain := (number (← .value gainPort)).convert binary32
    .store 1 (ofSamples ((samples block).map (· * gain)))

end Gain

/-- What a meter has measured: how many blocks, and the level of the last one. -/
structure Meter where
  blocks : Nat
  level : Double
deriving Inhabited

namespace Meter

/-- A meter before its first block. -/
def zero : Meter where
  blocks := 0
  level := Binary.zero binary64 false

def ports {ω : Type} : List (PortSpec ω) :=
  [.input .block]

/-- The root of the mean of the squares of samples, zero if there are none. -/
def rootMeanSquare (block : List Single) : Double :=
  if block.isEmpty then Binary.zero binary64 false
  else
    let square (x : Single) : Double := x.convert binary64 * x.convert binary64
    let sum := block.foldl (fun sum x ↦ sum + square x) (Binary.zero binary64 false)
    (sum / Binary.ofNat binary64 block.length).squareRoot

def process {ω : Type} : NodeProgram Meter ω Unit := do
  if ← .need (← .hasData 0) then
    let block ← .need (← .read 0)
    modify fun meter ↦ ⟨meter.blocks + 1, rootMeanSquare (samples block)⟩

end Meter

/-- A node of the demonstration. -/
inductive Node where
  | tone (tone : Tone)
  | gain
  | meter (meter : Meter)
deriving Inhabited

namespace Node

variable {ω : Type}

def name : Node → String
  | .tone _ => "tone-source"
  | .gain => "gain"
  | .meter _ => "level-meter"

/-- Carries out a program on the state of a node. -/
def carry {σ : Type} (program : NodeProgram σ ω Unit) (state : σ) (node : σ → Node) :
    Act ω (Except Stop Unit × Node) := do
  let (ending, state) ← program.run.run state
  return (ending, node state)

/-- A call of a node. Outputs are cleared at the top of every cycle. -/
def perform (phase : Phase) (node : Node) : Act ω (Except Stop Unit × Node) :=
  match phase, node with
  | .init, .tone t => carry Tone.init t .tone
  | .process, .tone t => carry Tone.process t .tone
  | .process, .gain => carry Gain.process () fun _ ↦ .gain
  | .process, .meter m => carry Meter.process m .meter
  | .reset, _ => carry .clearAll () fun _ ↦ node
  | .init, _ | .destroy, _ => return (.ok (), node)

instance : Behaviour Node Empty where
  name := name
  naming _ _ := ⟨[], none⟩
  perform phase _ := perform phase

end Node

/-- The controls that the demonstration binds: a frequency up to half the sample rate, and a
gain up to four. -/
def controls (sampleRate : UInt32) : List (String × Spec) :=
  let zero := Binary.zero binary64 false
  [("freq", .ranged .double zero (Binary.ofNat binary64 sampleRate.toNat * half binary64)),
    ("gain", .ranged .double zero (Binary.ofNat binary64 4))]

end SignalFlow.Demo
