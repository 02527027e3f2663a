import SignalFlow.CommandLine.Command

/-!
# The command line

Reads the arguments and the configuration file, and prints what the library answers. A run
takes its time: the source makes a block as often as its samples last.
-/

open SignalFlow SignalFlow.Flow SignalFlow.CommandLine SignalFlow.Numeric

def readConfigFile (path : String) : IO (Except FileFault String) := do
  try
    let bytes ← IO.FS.readBinFile path
    return match String.fromUTF8? bytes with
      | some text => .ok text
      | none => .error .notText
  catch
    | .noFileOrDirectory .. => return .error .notFound
    | .inappropriateType .. => return .error .isADirectory
    | e => return .error (.other (toString e))

def loadConfig (path : Option String) : IO (Except ConfigError Config) := do
  match path with
  | none => return .ok .standard
  | some path => return Config.ofFile path (← readConfigFile path)

/-- Iterates until a number of milliseconds is over, or forever. -/
partial def runUntil (limit : Option Nat) (period : Nat) (started : Nat) (next : Nat)
    (p : Demo.Pipeline) : IO Demo.Pipeline := do
  let now ← IO.monoMsNow
  if limit.any (· ≤ now - started) then return p
  if now < next then
    IO.sleep (UInt32.ofNat (min (next - now) 20))
    runUntil limit period started next p
  else runUntil limit period started (next + period) p.step

/-- Never comes back. -/
partial def waitForever : IO UInt32 := do
  IO.sleep 1000
  waitForever

/-- Runs a pipeline and prints what the meter has measured. -/
def runSession (s : Session) : IO UInt32 := do
  match s.pipeline.launch .willing s.updates with
  | .error (.failed e _ _) =>
    IO.eprintln (Failure.text ⟨e.text, none⟩)
    return 1
  | .error (.panicked p) =>
    IO.eprintln p.text
    return 101
  | .error (.stuck _ _) => waitForever
  | .ok pipeline =>
    if s.options.duration.isNone then IO.eprintln "Press Ctrl+C to stop..."
    let started ← IO.monoMsNow
    let milliseconds (seconds : Double) : Nat :=
      ((seconds * Binary.ofNat binary64 1000).wholePart).getD 0
    let limit := s.options.duration.map milliseconds
    let pipeline ← runUntil limit (milliseconds pipeline.source.period) started started pipeline
    let meter := pipeline.halt.reading
    let elapsed := (← IO.monoMsNow) - started
    IO.print (s.summary meter (Binary.ofRatio binary64 false elapsed 1000))
    return 0

def main (args : List String) : IO UInt32 := do
  match Request.ofArguments args with
  | .wrong =>
    IO.eprint usageText
    return 2
  | .help =>
    IO.print usageText
    return 0
  | .version =>
    IO.print versionText
    return 0
  | .command command =>
    let reply := (← loadConfig command.config?).mapError Failure.ofConfig >>= command.reply
    match reply with
    | .error failure =>
      IO.eprintln failure.text
      return 1
    | .ok (.printed text) =>
      IO.print text
      return 0
    | .ok (.session session) => runSession session
