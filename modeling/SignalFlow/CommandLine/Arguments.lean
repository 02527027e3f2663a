import SignalFlow.Control.Query

/-!
# Arguments of the command line

The first argument names a command, and the others are its options and positional arguments.
An option is written with two hyphens and its name, or with one hyphen and its letter; its
value follows as the next argument, or behind an equals sign, or directly behind the letter.
An argument that begins with a hyphen is a value only where it is joined to its option or
behind a double hyphen. Arguments are taken in their order, and the first that is wrong, or
that asks for help, decides.
-/

namespace SignalFlow.CommandLine

open SignalFlow.Numeric SignalFlow.Control SignalFlow.Text

/-- An option that a command knows. -/
structure Form where
  name : String
  letter : Option Char
  takesValue : Bool
deriving DecidableEq, Repr

/-- What comes of reading arguments. -/
inductive Reading (σ : Type) where
  | read (result : σ)
  | help
  | wrong

/-- How arguments are taken into account: options with their values, and positional ones.
Nothing comes of one that is wrong. -/
structure Intake (σ : Type) where
  forms : List Form
  option : σ → (name value : String) → Option σ
  positional : σ → String → Option σ

namespace Intake

variable {σ : Type}

/-- What an argument is: an option with the value that is joined to it, if any, a double
hyphen, or a value. -/
inductive Shape where
  | long (name : String) (joined : Option String)
  | short (letter : Char) (joined : Option String)
  | separator
  | value

/-- Tells what an argument is. A single hyphen is a value. -/
def shape (arg : String) : Shape :=
  match arg.toList with
  | ['-', '-'] => .separator
  | '-' :: '-' :: rest =>
    match cutFirst? '=' rest with
    | some (name, value) => .long (String.ofList name) (some (String.ofList value))
    | none => .long (String.ofList rest) none
  | ['-', letter] => .short letter none
  | '-' :: letter :: '=' :: rest => .short letter (some (String.ofList rest))
  | '-' :: letter :: rest => .short letter (some (String.ofList rest))
  | _ => .value

def form? (intake : Intake σ) : Shape → Option Form
  | .long name _ => intake.forms.find? (·.name == name)
  | .short letter _ => intake.forms.find? (·.letter == some letter)
  | .separator | .value => none

def asksHelp : Shape → Bool
  | .long name joined => name == "help" && joined.isNone
  | .short letter _ => letter == 'h'
  | .separator | .value => false

def joined? : Shape → Option String
  | .long _ joined | .short _ joined => joined
  | .separator | .value => none

def readPositional (intake : Intake σ) (state : σ) (args : List String) : Reading σ :=
  match args.foldlM intake.positional state with
  | some state => .read state
  | none => .wrong

def readAll (intake : Intake σ) (state : σ) : List String → Reading σ
  | [] => .read state
  | arg :: rest =>
    let s := shape arg
    match s with
    | .separator => intake.readPositional state rest
    | .value =>
      match intake.positional state arg with
      | some state => intake.readAll state rest
      | none => .wrong
    | s =>
      if asksHelp s then .help
      else
        match intake.form? s, joined? s with
        | none, _ => .wrong
        | some form, none =>
          if form.takesValue then
            match rest with
            | [] => .wrong
            | value :: rest =>
              match shape value, intake.option state form.name value with
              | .value, some state => intake.readAll state rest
              | _, _ => .wrong
          else
            match intake.option state form.name "" with
            | some state => intake.readAll state rest
            | none => .wrong
        | some form, some value =>
          if form.takesValue then
            match intake.option state form.name value with
            | some state => intake.readAll state rest
            | none => .wrong
          else .wrong

end Intake

/-- What a run is to do. -/
structure RunOptions where
  config : Option String
  duration : Option Double
  updates : List (String × String)
  sampleRate : UInt32
  blockSize : Nat
  freq : Double
  json : Bool

/-- A command. -/
inductive Command where
  | run (options : RunOptions)
  | schema (config : Option String)
  | parse (query : String) (config : Option String) (json : Bool)

/-- The path of the configuration that a command asks for. -/
def Command.config? : Command → Option String
  | .run options => options.config
  | .schema config | .parse _ config _ => config

/-- What the arguments as a whole ask for. -/
inductive Request where
  | command (command : Command)
  | version
  | help
  | wrong

/-- Options as they are given, those with a single value once at most. -/
abbrev Given := NameMap (List String)

def Given.value? (given : Given) (name : String) : Option String :=
  (given.get? name).bind List.head?

def Given.values (given : Given) (name : String) : List String :=
  (given.get? name).getD []

/-- The name under which positional arguments are kept. -/
def positionalName : String := ""

/-- Reads options into a map, checking every value. An option that is no list is given once. -/
def intake (forms : List Form) (lists : List String) (valid : String → String → Bool)
    (positionals : Nat) : Intake Given where
  forms := forms
  option given name value :=
    if (given.contains name && !lists.contains name) || !valid name value then none
    else some (given.insert name (given.values name ++ [value]))
  positional given value :=
    if positionals ≤ (given.values positionalName).length then none
    else some (given.insert positionalName (given.values positionalName ++ [value]))

def configForm : Form := ⟨"config", some 'c', true⟩

def schemaIntake : Intake Given :=
  intake [configForm] [] (fun _ value ↦ !value.isEmpty) 0

def parseIntake : Intake Given :=
  intake [configForm, ⟨"json", none, false⟩] []
    (fun name value ↦ name == "json" || !value.isEmpty) 1

/-- Reads a number of samples in a second: an integer with any sign that fits 32 bits. -/
def sampleRate? (value : String) : Option UInt32 := do
  let n ← readInteger? value.toList
  if 0 ≤ n ∧ n < UInt32.size then some (UInt32.ofNat n.toNat) else none

def blockSize? (value : String) : Option Nat :=
  readNatural? (UInt64.size - 1) value.toList

def double? (value : String) : Option Double :=
  Binary.read? binary64 value.toList

/-- Whether a value suits an option of a run. -/
def runValid (name value : String) : Bool :=
  match name with
  | "config" => !value.isEmpty
  | "duration" | "freq" => (double? value).isSome
  | "set" => (readPair? value).toBool
  | "sample-rate" => (sampleRate? value).isSome
  | "block-size" => (blockSize? value).isSome
  | _ => true

def runIntake : Intake Given :=
  intake
    [configForm, ⟨"duration", some 'd', true⟩, ⟨"set", none, true⟩, ⟨"sample-rate", none, true⟩,
      ⟨"block-size", none, true⟩, ⟨"freq", none, true⟩, ⟨"json", none, false⟩]
    ["set"] runValid 0

/-- The options of a run as they are given, or their usual values. -/
def RunOptions.ofGiven (given : Given) : RunOptions where
  config := given.value? "config"
  duration := (given.value? "duration").bind double?
  updates := (given.values "set").filterMap fun value ↦ (readPair? value).toOption
  sampleRate := ((given.value? "sample-rate").bind sampleRate?).getD 48000
  blockSize := ((given.value? "block-size").bind blockSize?).getD 1024
  freq := ((given.value? "freq").bind double?).getD (Binary.ofNat binary64 1000)
  json := given.contains "json"

/-- Makes a command of what is read. -/
def Reading.request {σ : Type} (command? : σ → Option Command) : Reading σ → Request
  | .read result =>
    match command? result with
    | some command => .command command
    | none => .wrong
  | .help => .help
  | .wrong => .wrong

def commandNames : List String := ["run", "schema", "parse", "help"]

def Request.ofArguments : List String → Request
  | [] => .wrong
  | "run" :: rest =>
    (runIntake.readAll .empty rest).request fun given ↦ some (.run (.ofGiven given))
  | "schema" :: rest =>
    (schemaIntake.readAll .empty rest).request fun given ↦ some (.schema (given.value? "config"))
  | "parse" :: rest =>
    (parseIntake.readAll .empty rest).request fun given ↦
      (given.value? positionalName).map fun query ↦
        .parse query (given.value? "config") (given.contains "json")
  | ["help"] => .help
  | ["help", name] => if commandNames.contains name then .help else .wrong
  | arg :: _ =>
    match Intake.shape arg with
    | .long "version" none | .short 'V' _ => .version
    | s => if Intake.asksHelp s then .help else .wrong

end SignalFlow.CommandLine
