import SignalFlow.Control.Schema
import SignalFlow.Flow.FileSystem
import SignalFlow.Graph.Basic
import SignalFlow.Toml.Document
import SignalFlow.Toml.Writer

/-!
# Flow configurations

A flow configuration holds the options of a graph, a filter for its reports if there is one,
and the schema of its controls. It is kept in a TOML document; what the document leaves out
has its usual value, and keys without a meaning are passed over. A configuration that was
read is sound: queues have room, and the ranges of the controls are in order.
-/

namespace SignalFlow.Flow

open SignalFlow.Numeric SignalFlow.Control

/-- A configuration. -/
structure Config where
  options : Options
  logFilter : Option String
  controls : Schema

/-- Why a configuration is not read or written. -/
inductive ConfigError where
  | readFile (path : String) (cause : FileFault)
  | writeFile (path : String) (cause : FileFault)
  | createDir (path : String) (cause : FileFault)
  | tomlParse
  | tomlSerialize
  | zeroCapacity
  | range (error : RangeError)
deriving DecidableEq, Repr

namespace ConfigError

def text : ConfigError → String
  | readFile path cause => "failed to read file '" ++ path ++ "': " ++ cause.text
  | writeFile path cause => "failed to write file '" ++ path ++ "': " ++ cause.text
  | createDir path cause => "failed to create directory '" ++ path ++ "': " ++ cause.text
  | tomlParse => "failed to parse TOML"
  | tomlSerialize => "failed to serialize TOML"
  | zeroCapacity => "engine queue_capacity must be greater than zero"
  | range error => error.text

/-- The text of what caused an error, if something else did. -/
def cause? : ConfigError → Option String
  | readFile _ cause | writeFile _ cause | createDir _ cause => some cause.text
  | tomlParse | tomlSerialize | zeroCapacity | range _ => none

end ConfigError

namespace Config

/-- The configuration of an empty document. -/
def standard : Config where
  options := .standard
  logFilter := none
  controls := .radio

/-- Whether two configurations agree, bounds of controls being compared in value. -/
def same (a b : Config) : Bool :=
  a.options == b.options && a.logFilter == b.logFilter && a.controls.same b.controls

/-- Checks that queues have room, and then the ranges of the controls. -/
def validate (c : Config) : Except ConfigError Unit :=
  if c.options.queueCapacity = 0 then .error .zeroCapacity
  else c.controls.validate.mapError .range

end Config

namespace Decode

/-- The fields of a record: by their names, or in their order. A time is a record of other
fields. -/
def fields? (names : List String) : Toml.Value → Option Toml.Entries
  | .table _ entries => some entries
  | .array items => some (names.zip items)
  | .tables elements => some (names.zip elements)
  | .moment => some []
  | .text _ | .integer _ | .float _ | .boolean _ => none

/-- Decodes a field, or gives its usual value if it is not there. -/
def field {α : Type} (entries : Toml.Entries) (name : String) (usual : α)
    (decode : Toml.Value → Option α) : Option α :=
  match entries.lookup name with
  | none => some usual
  | some value => decode value

def natural? : Toml.Value → Option Nat
  | .integer n => if 0 ≤ n then some n.toNat else none
  | _ => none

def text? : Toml.Value → Option String
  | .text s => some s
  | _ => none

def double? : Toml.Value → Option Double
  | .float x => some x
  | .integer n => some (Binary.ofInt binary64 n)
  | _ => none

/-- Whether a value has nothing in it. -/
def isEmpty : Toml.Value → Bool
  | .table _ entries => entries.isEmpty
  | .array items => items.isEmpty
  | .tables elements => elements.isEmpty
  | .text _ | .integer _ | .float _ | .boolean _ | .moment => false

/-- The kind of a control: its name, or a table with the name as its key. A table in braces has
no other key; of another table the first key counts. -/
def kind? : Toml.Value → Option Kind
  | .text name => Kind.ofName? name
  | .table making ((name, value) :: rest) =>
    if isEmpty value && (rest.isEmpty || (making != .braces && making != .keyInBraces)) then
      Kind.ofName? name
    else none
  | _ => none

def spec? (value : Toml.Value) : Option Spec := do
  let entries ← fields? ["kind", "min", "max"] value
  let kind ← kind? (← entries.lookup "kind")
  let min ← field entries "min" none fun v ↦ (double? v).map some
  let max ← field entries "max" none fun v ↦ (double? v).map some
  some ⟨kind, min, max⟩

def schema? : Toml.Value → Option Schema
  | .table _ entries => do
    let specs ← entries.mapM fun (name, value) ↦ do some (name, ← spec? value)
    some (NameMap.ofList specs)
  | _ => none

def engine? (value : Toml.Value) : Option (Options × Option String) := do
  let entries ←
    fields? ["queue_capacity", "data_wait_ms", "thread_name_prefix", "log_filter"] value
  let usual := Options.standard
  let queueCapacity ← field entries "queue_capacity" usual.queueCapacity natural?
  let dataWait ← field entries "data_wait_ms" usual.dataWait natural?
  let threadName ← field entries "thread_name_prefix" usual.threadName text?
  let logFilter ← field entries "log_filter" none fun v ↦ (text? v).map some
  some (⟨queueCapacity, dataWait, threadName⟩, logFilter)

def config? (entries : Toml.Entries) : Option Config := do
  let (options, logFilter) ← field entries "engine" (.standard, none) engine?
  let controls ← field entries "controls" Schema.radio schema?
  some ⟨options, logFilter, controls⟩

end Decode

namespace Config

/-- Reads a configuration, which must be sound. -/
def ofToml (text : String) : Except ConfigError Config :=
  match Toml.Document.read? text.toList >>= Toml.Document.tree? >>= Decode.config? with
  | none => .error .tomlParse
  | some config => config.validate.map fun _ ↦ config

def controlSection (control : String × Spec) : Toml.Section where
  path := ["controls", control.1]
  pairs := ("kind", .text control.2.kind.name) ::
    (control.2.min.map fun x ↦ ("min", .float x)).toList ++
    (control.2.max.map fun x ↦ ("max", .float x)).toList

/-- The sections of a configuration: the options, and one for each control. -/
def sections (c : Config) : List Toml.Section :=
  let engine : Toml.Section :=
    ⟨["engine"],
      [("queue_capacity", .integer c.options.queueCapacity),
        ("data_wait_ms", .integer c.options.dataWait),
        ("thread_name_prefix", .text c.options.threadName)] ++
        (c.logFilter.map fun filter ↦ ("log_filter", .text filter)).toList⟩
  let controls :=
    if c.controls.isEmpty then [⟨["controls"], []⟩] else c.controls.entries.map controlSection
  engine :: controls

def greatestInteger : Nat := UInt64.size / 2 - 1

/-- Writes a configuration. Integers may be too great to be written. -/
def toToml (c : Config) : Except ConfigError String :=
  if c.options.queueCapacity ≤ greatestInteger ∧ c.options.dataWait ≤ greatestInteger then
    .ok (String.ofList (Toml.writeSections c.sections))
  else .error .tomlSerialize

/-- The configuration of a file, given what comes of reading the file at a path. -/
def ofFile (path : String) (content : Except FileFault String) : Except ConfigError Config := do
  let text ← content.mapError (.readFile path)
  ofToml text

def load (fs : FileSystem) (path : String) : Except ConfigError Config :=
  ofFile path (fs.read path)

/-- Writes a configuration to a file. First the directory of the file is made if it is not
there; then the text is made, and then the file is written. -/
def save (c : Config) (fs : FileSystem) (path : String) : FileSystem × Except ConfigError Unit :=
  let write (fs : FileSystem) : FileSystem × Except ConfigError Unit :=
    match c.toToml with
    | .error e => (fs, .error e)
    | .ok text =>
      match fs.write path text.toUTF8 with
      | .error fault => (fs, .error (.writeFile path fault))
      | .ok fs => (fs, .ok ())
  match Path.parent? path with
  | none => write fs
  | some parent =>
    if parent.isEmpty || fs.pathExists parent then write fs
    else
      match fs.makeDirectories (parent.length + 1) parent with
      | (fs, .ok ()) => write fs
      | (fs, .error fault) => (fs, .error (.createDir parent fault))

end Config

end SignalFlow.Flow
