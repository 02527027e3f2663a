import SignalFlow.Control.Schema
import SignalFlow.Numeric.Numeral
import SignalFlow.Text

/-!
# Parameter queries

A query is a row of pairs of a name and a value, with an equals sign in a pair and ampersands
between pairs. A schema says how the value of a name is read. The first pair that is not in
order decides the error; of a repeated name the last value stays.
-/

namespace SignalFlow.Control

open SignalFlow.Numeric SignalFlow.Text

/-- Why a parameter is refused. -/
inductive QueryError where
  | malformedPair (pair : String)
  | unknownParameter (name : String)
  | invalidValue (name : String) (kind : Kind) (value : String)
deriving DecidableEq, Repr

def QueryError.text : QueryError → String
  | .malformedPair pair => "malformed parameter pair '" ++ pair ++ "'"
  | .unknownParameter name => "unknown parameter " ++ name
  | .invalidValue name kind value =>
    "invalid value '" ++ value ++ "' for " ++ kind.name ++ " parameter '" ++ name ++ "'"

/-- Reads a value of a kind. A switch is one digit, and a double is finite. -/
def Kind.readValue? (kind : Kind) (raw : String) : Option Value :=
  match kind with
  | .bool => if raw = "0" then some (.bool false) else if raw = "1" then some (.bool true) else none
  | .uint => (readNatural? (UInt32.size - 1) raw.toList).map fun n ↦ .uint (UInt32.ofNat n)
  | .double => ((Binary.read? binary64 raw.toList).filter Binary.isFinite).map .double
  | .text => some (.text raw)

def Spec.readValue (spec : Spec) (name raw : String) : Except QueryError Value :=
  match spec.kind.readValue? raw with
  | some value => .ok value
  | none => .error (.invalidValue name spec.kind raw)

namespace Schema

/-- Reads a value for a name of the schema and adds it to the updates. -/
def readPair (schema : Schema) (updates : Updates) (name raw : String) :
    Except QueryError Updates :=
  match schema.get? name with
  | none => .error (.unknownParameter name)
  | some spec => (spec.readValue name raw).map (updates.insert name)

/-- Reads one segment of a query, which holds exactly one equals sign. -/
def readSegment (schema : Schema) (updates : Updates) (segment : List Char) :
    Except QueryError Updates :=
  match pieces '=' segment with
  | [name, raw] => schema.readPair updates (String.ofList name) (String.ofList raw)
  | _ => .error (.malformedPair (String.ofList segment))

/-- Reads a query. An empty one has no updates. -/
def readQuery (schema : Schema) (query : String) : Except QueryError Updates :=
  if query.toList.isEmpty then .ok .empty
  else (pieces '&' query.toList).foldlM schema.readSegment .empty

/-- Reads a value for a name of the schema. -/
def readEntry (schema : Schema) (name raw : String) : Except QueryError (String × Value) :=
  match schema.get? name with
  | none => .error (.unknownParameter name)
  | some spec => (spec.readValue name raw).map (name, ·)

/-- Reads the values of pairs that are split already, and collects them if all are in order. -/
def readPairs (schema : Schema) (pairs : List (String × String)) : Except QueryError Updates :=
  (pairs.mapM fun (name, raw) ↦ schema.readEntry name raw).map .ofList

end Schema

/-- A text that should be a name and a value but has no equals sign. -/
structure PairError where
  text : String
deriving DecidableEq

def PairError.message (e : PairError) : String :=
  "Invalid parameter format: '" ++ e.text ++ "' (expected key=value)"

/-- Splits a name and a value at the first equals sign. -/
def readPair? (s : String) : Except PairError (String × String) :=
  match cutFirst? '=' s.toList with
  | some (name, value) => .ok (String.ofList name, String.ofList value)
  | none => .error ⟨s⟩

end SignalFlow.Control
