import SignalFlow.CommandLine.Arguments
import SignalFlow.Control.Packet
import SignalFlow.Demo.Pipeline
import SignalFlow.Flow.Config
import SignalFlow.Numeric.Layout

/-!
# Commands

The schema command lists the controls of a configuration, and the parse command reads a query
by it. The run command makes the pipeline of the demonstration; what it prints in the end is
made of what the meter has measured.
-/

namespace SignalFlow.CommandLine

open SignalFlow.Numeric SignalFlow.Control SignalFlow.Flow

/-- Why a command fails, and what caused that if something else did. -/
structure Failure where
  message : String
  cause : Option String
deriving DecidableEq, Repr

def Failure.text (f : Failure) : String :=
  "Error: " ++ f.message ++ f.cause.elim "" ("\n\nCaused by:\n    " ++ ·)

def Failure.ofConfig (e : ConfigError) : Failure :=
  ⟨e.text, e.cause?⟩

def Failure.ofQuery (e : QueryError) : Failure :=
  ⟨e.text, none⟩

def line (s : String) : String :=
  s ++ "\n"

/-- A text with blanks behind it up to a width in characters. -/
def padRight (width : Nat) (s : String) : String :=
  s ++ String.ofList (List.replicate (width - s.length) ' ')

/-- A range, with an infinity for an open side; nothing if both sides are open. -/
def rangeText (spec : Spec) : String :=
  if spec.hasRange then
    let bound (usual : String) (b : Option Double) : String := b.elim usual Layout.plain.render
    "[" ++ bound "-inf" spec.min ++ ", " ++ bound "+inf" spec.max ++ "]"
  else ""

def schemaRow (name kind range : String) : String :=
  line ("  " ++ padRight 12 name ++ " " ++ padRight 8 kind ++ " " ++ range)

def schemaText (schema : Schema) : String :=
  line (line ("Controls (" ++ toString schema.size ++ "):")) ++ schemaRow "NAME" "KIND" "RANGE" ++
    String.join (schema.entries.map fun (name, spec) ↦
      schemaRow name spec.kind.name (rangeText spec))

/-- The updates of a query, one in a line or as a packet. -/
def updatesText (updates : Updates) (json : Bool) : String :=
  if json then line (String.ofList (Packet.writeJson updates))
  else
    String.join (updates.entries.map fun (name, value) ↦
      line (name ++ " = " ++ value.render ++ " (" ++ value.kind.name ++ ")"))

/-- A duration must fit an unsigned 64-bit number of seconds. -/
def checkDuration (seconds : Double) : Except Failure Unit :=
  let refuse (reason : String) : Except Failure Unit :=
    .error ⟨"invalid --duration", some ("cannot convert float seconds to Duration: " ++ reason)⟩
  if seconds < Binary.zero binary64 false then refuse "value is negative"
  else if seconds.wholePart.any (· < UInt64.size) then .ok ()
  else refuse "value is either too big or NaN"

/-- A pipeline with what is printed of it in the end. -/
structure Session where
  pipeline : Demo.Pipeline
  updates : Updates
  options : RunOptions

/-- What is printed of a run that took so many seconds. -/
def Session.summary (s : Session) (meter : Demo.Meter) (elapsed : Double) : String :=
  if s.options.json then
    let packet : Packet := .ofList
      [("blocks", .uint (UInt32.ofNat (min meter.blocks (UInt32.size - 1)))),
        ("rms", .double meter.level), ("sample_rate", .uint s.options.sampleRate),
        ("elapsed_s", .double elapsed)]
    line (String.ofList packet.writeJson)
  else
    line ("Blocks metered: " ++ toString meter.blocks) ++
      line ("Last RMS:       " ++ String.ofList (meter.level.fixed 4)) ++
      line ("Elapsed:        " ++ String.ofList (elapsed.fixed 2) ++ " s")

def prepare (options : RunOptions) (config : Config) : Except Failure Session := do
  options.duration.forM checkDuration
  let schema := Demo.schema config.controls options.sampleRate
  let updates ← (schema.readPairs options.updates).mapError .ofQuery
  let pipeline ←
    (Demo.Pipeline.ofOptions config.options schema options.sampleRate options.blockSize
      options.freq).mapError fun e ↦ ⟨e.text, none⟩
  return ⟨pipeline, updates, options⟩

/-- What a command comes to: a text to print, or a run. -/
inductive Reply where
  | printed (text : String)
  | session (session : Session)

/-- What a command comes to with a configuration. -/
def Command.reply (config : Config) : Command → Except Failure Reply
  | .schema _ => .ok (.printed (schemaText config.controls))
  | .parse query _ json =>
    ((config.controls.readQuery query).mapError .ofQuery).map fun updates ↦
      .printed (updatesText updates json)
  | .run options => (prepare options config).map .session

def usageText : String :=
  String.join ([
    "Usage: sdrflow <COMMAND>", "",
    "Commands:",
    "  run     Run the demo pipeline: tone source, queue, gain, level meter",
    "  schema  Print the control schema",
    "  parse   Parse a control query", "",
    "Options:",
    "  -h, --help     Print help",
    "  -V, --version  Print version"].map line)

def versionText : String := line "sdrflow 0.1.0"

end SignalFlow.CommandLine
