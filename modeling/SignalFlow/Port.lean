import SignalFlow.Control.Storage
import SignalFlow.Data

/-!
# Ports

A node has three kinds of ports. An output takes one value in a cycle and keeps it until it is
cleared. An input reads the output that it is attached to; it is attached once. A control
holds a value that is set from outside, and may have one observer, who is told of every value
after it has been stored and may remember it.
-/

namespace SignalFlow

/-- The kind of a port. -/
inductive PortKind where
  | input
  | output
  | control
deriving DecidableEq, Repr, Inhabited

def PortKind.name : PortKind → String
  | .input => "input"
  | .output => "output"
  | .control => "control"

/-- What is wrong with the use of a port. -/
inductive PortFault where
  | unconnected
  | noData
  | alreadySet
  | alreadyConnected
  | alreadyObserving
  | notObserving
  | typeMismatch (expected found : DataType)
  | wrongKind (expected found : PortKind)
  | noSuchPort (index : Nat)
  | noPortOfKind (kind : PortKind)
deriving DecidableEq, Repr

def PortFault.text : PortFault → String
  | .unconnected => "input is not connected"
  | .noData => "no data available this cycle"
  | .alreadySet => "output already set this cycle"
  | .alreadyConnected => "input is already connected"
  | .alreadyObserving => "control is already observed"
  | .notObserving => "control is not observed"
  | .typeMismatch expected found =>
    "data type mismatch: expected " ++ expected.name ++ ", found " ++ found.name
  | .wrongKind expected found =>
    "expected " ++ expected.name ++ " port, found " ++ found.name ++ " port"
  | .noSuchPort index => "no port at index " ++ toString index
  | .noPortOfKind kind => "node has no " ++ kind.name ++ " port"

def inspectBool (b : Bool) : String :=
  if b then "true" else "false"

/-- A slot for one value in a cycle. -/
structure Output where
  type : DataType
  value : Option Datum
deriving Inhabited

namespace Output

def ofType (type : DataType) : Output :=
  ⟨type, none⟩

def isSet (o : Output) : Bool :=
  o.value.isSome

/-- Publishes a value for this cycle. -/
def store (o : Output) (value : Datum) : Except PortFault Output :=
  if o.isSet then .error .alreadySet else .ok { o with value := some value }

def clear (o : Output) : Output :=
  { o with value := none }

def inspect (o : Output) : String :=
  "Output \x7b type: " ++ Text.quoted o.type.name ++ ", set: " ++ inspectBool o.isSet ++ " \x7d"

/-- What an output shares with inputs, as it is shown for inspection. -/
def inspectShared (o : Output) : String :=
  "SharedCell \x7b type_name: " ++ Text.quoted o.type.name ++ ", .. \x7d"

end Output

/-- A place that reads an output, which is named by its source. -/
structure Input (κ : Type) where
  type : DataType
  source : Option κ
deriving DecidableEq, Repr

namespace Input

variable {κ : Type}

def ofType (type : DataType) : Input κ :=
  ⟨type, none⟩

def isConnected (i : Input κ) : Bool :=
  i.source.isSome

/-- Attaches an input to a source with data of type `found`. -/
def attach (i : Input κ) (source : κ) (found : DataType) : Except PortFault (Input κ) :=
  if i.isConnected then .error .alreadyConnected
  else if i.type ≠ found then .error (.typeMismatch i.type found)
  else .ok { i with source := some source }

/-- The value of the source in this cycle, `value` being what each source holds. -/
def read (i : Input κ) (value : κ → Option Datum) : Except PortFault Datum :=
  match i.source with
  | none => .error .unconnected
  | some source =>
    match value source with
    | none => .error .noData
    | some datum => .ok datum

/-- Whether the source has a value in this cycle. -/
def hasData (i : Input κ) (value : κ → Option Datum) : Except PortFault Bool :=
  match i.source with
  | none => .error .unconnected
  | some source => .ok (value source).isSome

def inspect (i : Input κ) : String :=
  "Input \x7b type: " ++ Text.quoted i.type.name ++ ", connected: " ++
    inspectBool i.isConnected ++ " \x7d"

end Input

/-- What comes of telling an observer: its reports, and why it gave up if it did. -/
structure Reaction (ω : Type) where
  reports : List ω
  panic : Option Control.Panic
deriving Inhabited

/-- Somebody who is told of the data that a control stores. What it does may depend on all that it
was told before, so it may keep a state of its own. -/
structure Observer (t : Control.Storage) (ω : Type) where
  told : List t.Carrier
  react : (told : List t.Carrier) → t.Carrier → Reaction ω

namespace Observer

variable {t : Control.Storage} {ω : Type}

/-- An observer that does the same whenever it is told the same. -/
def steady (react : t.Carrier → Reaction ω) : Observer t ω :=
  ⟨[], fun _ ↦ react⟩

/-- An observer that starts in a state and changes it whenever it is told something. -/
def ofState {S : Type} (step : S → t.Carrier → S × Reaction ω) (start : S) : Observer t ω :=
  ⟨[], fun told data ↦ (step (told.foldl (fun state data ↦ (step state data).1) start) data).2⟩

/-- Tells an observer of data: the observer behind, and what comes of it. -/
def tell (o : Observer t ω) (data : t.Carrier) : Observer t ω × Reaction ω :=
  ({ o with told := o.told ++ [data] }, o.react o.told data)

end Observer

/-- A value that is set from outside. -/
structure ControlPort (ω : Type) where
  storage : Control.Storage
  data : storage.Carrier
  observer : Option (Observer storage ω)

namespace ControlPort

variable {ω : Type}

def value (c : ControlPort ω) : Control.Value :=
  c.storage.toValue c.data

def isObserved (c : ControlPort ω) : Bool :=
  c.observer.isSome

/-- Stores data and tells the observer. The data stays even if the observer gives up. -/
def set (c : ControlPort ω) (data : c.storage.Carrier) : ControlPort ω × Reaction ω :=
  ({ c with data, observer := c.observer.map fun o ↦ (o.tell data).1 },
    c.observer.elim ⟨[], none⟩ fun o ↦ (o.tell data).2)

/-- Adds an observer if there is none. -/
def observe (c : ControlPort ω) (observer : Observer c.storage ω) :
    Except PortFault (ControlPort ω) :=
  if c.isObserved then .error .alreadyObserving
  else .ok { c with observer := some observer }

def unobserve (c : ControlPort ω) : Except PortFault (ControlPort ω) :=
  if c.isObserved then .ok { c with observer := none } else .error .notObserving

def inspect (c : ControlPort ω) : String :=
  "Control \x7b value: " ++ c.storage.inspect c.data ++ ", observed: " ++
    inspectBool c.isObserved ++ " \x7d"

end ControlPort

/-- A port of a node. -/
inductive Port (κ ω : Type) where
  | input (i : Input κ)
  | output (o : Output)
  | control (c : ControlPort ω)

/-- What a node says of a port before it is used: its kind, its type, and for a control what
it holds at first and who observes it. -/
inductive PortSpec (ω : Type) where
  | input (type : DataType)
  | output (type : DataType)
  | control (storage : Control.Storage) (data : storage.Carrier)
      (observer : Option (Observer storage ω))

/-- The port of a specification, not attached and without a value. -/
def PortSpec.port {κ ω : Type} : PortSpec ω → Port κ ω
  | .input type => .input (.ofType type)
  | .output type => .output (.ofType type)
  | .control storage data observer => .control ⟨storage, data, observer⟩

namespace Port

variable {κ ω : Type}

def kind : Port κ ω → PortKind
  | .input _ => .input
  | .output _ => .output
  | .control _ => .control

/-- The name of the type that a port carries or holds. -/
def typeName : Port κ ω → String
  | .input i => i.type.name
  | .output o => o.type.name
  | .control c => c.storage.typeName

/-- The value that a port publishes, if it is an output. -/
def published : Port κ ω → Option Datum
  | .output o => o.value
  | .input _ | .control _ => none

def clear : Port κ ω → Port κ ω
  | .output o => .output o.clear
  | p => p

def inspect : Port κ ω → String
  | .input i => i.inspect
  | .output o => o.inspect
  | .control c => c.inspect

end Port

end SignalFlow
