import SignalFlow.NameMap
import SignalFlow.Numeric.Layout

/-!
# Control values

A control is set from outside by a value of one of four kinds. The written form of a value
is what a parameter query holds for it: a digit for a switch, decimal digits for a whole
number, all digits of a double, and a text as it is.
-/

namespace SignalFlow.Control

open SignalFlow.Numeric

/-- The kind of a control value. -/
inductive Kind where
  | bool
  | uint
  | double
  | text
deriving DecidableEq, Repr, Inhabited

def Kind.name : Kind → String
  | .bool => "bool"
  | .uint => "uint"
  | .double => "double"
  | .text => "text"

def Kind.ofName? (name : String) : Option Kind :=
  [Kind.bool, .uint, .double, .text].find? (·.name == name)

/-- Whether values of a kind can have a range. -/
def Kind.isNumeric : Kind → Bool
  | .uint | .double => true
  | .bool | .text => false

/-- A value for a control. -/
inductive Value where
  | bool (b : Bool)
  | uint (n : UInt32)
  | double (x : Double)
  | text (s : String)
deriving DecidableEq, Inhabited

namespace Value

def kind : Value → Kind
  | .bool _ => .bool
  | .uint _ => .uint
  | .double _ => .double
  | .text _ => .text

/-- The written form of a value in a query. -/
def render : Value → String
  | .bool b => if b then "1" else "0"
  | .uint n => String.ofList (Nat.toDigits 10 n.toNat)
  | .double x => Layout.plain.render x
  | .text s => s

/-- Whether two values are of one kind and equal, doubles being compared in value. -/
def same : Value → Value → Bool
  | .bool a, .bool b => a == b
  | .uint a, .uint b => a == b
  | .double a, .double b => Binary.same a b
  | .text a, .text b => a == b
  | _, _ => false

end Value

/-- Values for controls by name. -/
abbrev Updates := NameMap Value

end SignalFlow.Control
