import SignalFlow.Control.Value
import SignalFlow.Data
import SignalFlow.Text

/-!
# What controls store

A control stores data of one type. A posted value is converted to that type when it
arrives: whole numbers widen to floating-point types, and no other kind is converted to
another. A validator maps converted data before it is stored; it may also give up.
-/

namespace SignalFlow.Control

open SignalFlow.Numeric

/-- The type of the data that a control stores. -/
inductive Storage where
  | bool
  | word
  | double
  | single
  | text
deriving DecidableEq, Repr, Inhabited

/-- What a call that gave up left as its reason, if it left a text. -/
structure Panic where
  message : Option String
deriving DecidableEq, Repr, Inhabited

def Panic.text (p : Panic) : String :=
  p.message.getD "unknown panic payload"

/-- Why a control was not set or not bound. -/
inductive Fault where
  | typeMismatch (expected found : Kind)
  | wrongControlType (expected found : Storage)
  | notAControl (port : Nat)
  | foreignNode (node : NodeId)
  | panicked (message : String)
deriving DecidableEq, Repr

namespace Storage

/-- The data of a storage type. -/
@[reducible] def Carrier : Storage → Type
  | .bool => Bool
  | .word => UInt32
  | .double => Double
  | .single => Single
  | .text => String

def typeName : Storage → String
  | .bool => "bool"
  | .word => "u32"
  | .double => "f64"
  | .single => "f32"
  | .text => "alloc::string::String"

/-- The kind of the values that a storage type is converted from. -/
def kind : Storage → Kind
  | .bool => .bool
  | .word => .uint
  | .double | .single => .double
  | .text => .text

/-- Converts a posted value to a storage type. -/
def ofValue : (t : Storage) → Value → Except Fault t.Carrier
  | .bool, .bool b => .ok b
  | .word, .uint n => .ok n
  | .double, .double x => .ok x
  | .double, .uint n => .ok (Binary.ofNat binary64 n.toNat)
  | .single, .double x => .ok (x.convert binary32)
  | .single, .uint n => .ok (Binary.ofNat binary32 n.toNat)
  | .text, .text s => .ok s
  | t, v => .error (.typeMismatch t.kind v.kind)

def toValue : (t : Storage) → t.Carrier → Value
  | .bool, b => .bool b
  | .word, n => .uint n
  | .double, x => .double x
  | .single, x => .double (x.convert binary64)
  | .text, s => .text s

/-- Stored data as it is shown for inspection. -/
def inspect : (t : Storage) → t.Carrier → String
  | .bool, b => if b then "true" else "false"
  | .word, n => String.ofList (Nat.toDigits 10 n.toNat)
  | .double, x => Layout.annotated.render x
  | .single, x => Layout.annotated.render x
  | .text, s => Text.quoted s

end Storage

def Fault.text : Fault → String
  | .typeMismatch expected found =>
    "expected a " ++ expected.name ++ " control value, got " ++ found.name
  | .wrongControlType expected found =>
    "control holds " ++ found.typeName ++ ", binding expects " ++ expected.typeName
  | .notAControl port => "port " ++ toString port ++ " is not a control port"
  | .foreignNode node => "node " ++ node.text ++ " is not owned by this subgraph"
  | .panicked message => "panicked: " ++ message

/-- A map of converted data that may give up. -/
abbrev Validator (t : Storage) := t.Carrier → Except Panic t.Carrier

/-- The bound that a value is beyond, or the value itself. The lower bound is asked first. -/
def clamp {α : Type} [LT α] [DecidableLT α] (lower upper value : α) : α :=
  if value < lower then lower else if upper < value then upper else value

namespace Storage

/-- Brings stored data between two bounds. Texts are compared by their code points. -/
def clamp : (t : Storage) → (lower upper value : t.Carrier) → t.Carrier
  | .bool, lower, upper, value => Control.clamp lower upper value
  | .word, lower, upper, value => Control.clamp lower upper value
  | .double, lower, upper, value => Control.clamp lower upper value
  | .single, lower, upper, value => Control.clamp lower upper value
  | .text, lower, upper, value => Control.clamp lower upper value

end Storage

def Validator.clamping (t : Storage) (lower upper : t.Carrier) : Validator t :=
  fun value ↦ .ok (t.clamp lower upper value)

end SignalFlow.Control
