import SignalFlow.Control.Storage

/-!
# Control schemas

A schema names the controls that a pipeline takes, with the kind of each and, for numbers,
an optional range. A range is sound if its lower bound is not above its upper bound; a bound
that is not a number is above nothing.
-/

namespace SignalFlow.Control

open SignalFlow.Numeric

/-- What a schema says of one control. -/
structure Spec where
  kind : Kind
  min : Option Double
  max : Option Double
deriving DecidableEq, Inhabited

/-- Why a range is refused. -/
inductive RangeError where
  | invalidRange (name : String) (min max : Double)
  | rangeOnNonNumeric (name : String) (kind : Kind)
deriving DecidableEq, Repr

def RangeError.text : RangeError → String
  | .invalidRange name min max =>
    "control '" ++ name ++ "' has min " ++ Layout.plain.render min ++ " above max " ++
      Layout.plain.render max
  | .rangeOnNonNumeric name kind =>
    "control '" ++ name ++ "' of kind " ++ kind.name ++ " cannot have a range"

namespace Spec

def ofKind (kind : Kind) : Spec :=
  ⟨kind, none, none⟩

/-- A control of a kind between two bounds. -/
def ranged (kind : Kind) (min max : Double) : Spec :=
  ⟨kind, some min, some max⟩

def hasRange (spec : Spec) : Bool :=
  spec.min.isSome || spec.max.isSome

/-- Checks the range of a control: only numbers have one, and it is not invalidRange. -/
def check (name : String) (spec : Spec) : Except RangeError Unit :=
  if !spec.hasRange then .ok ()
  else if !spec.kind.isNumeric then .error (.rangeOnNonNumeric name spec.kind)
  else
    match spec.min, spec.max with
    | some min, some max => if max < min then .error (.invalidRange name min max) else .ok ()
    | _, _ => .ok ()

/-- Whether two specifications agree, bounds being compared in value. -/
def same (a b : Spec) : Bool :=
  let sameBound : Option Double → Option Double → Bool
    | none, none => true
    | some x, some y => Binary.same x y
    | _, _ => false
  a.kind == b.kind && sameBound a.min b.min && sameBound a.max b.max

/-- The validator of a range for a numeric storage type. An open side is closed by the
greatest finite number of the type; a bound is brought into the type, whole numbers being
cut off below the point. -/
def validator? (spec : Spec) (t : Storage) : Option (Validator t) :=
  if spec.kind.isNumeric && spec.hasRange then
    match t with
    | .double =>
      some (.clamping .double (spec.min.getD (Binary.greatest binary64 true))
        (spec.max.getD (Binary.greatest binary64 false)))
    | .single =>
      let bound (b : Option Double) (negative : Bool) : Single :=
        b.elim (Binary.greatest binary32 negative) (Binary.convert binary32)
      some (.clamping .single (bound spec.min true) (bound spec.max false))
    | .word =>
      some (.clamping .word (spec.min.elim 0 Binary.toUInt32)
        (spec.max.elim (UInt32.ofNat (UInt32.size - 1)) Binary.toUInt32))
    | .bool | .text => none
  else none

end Spec

/-- The controls of a pipeline by name. -/
abbrev Schema := NameMap Spec

namespace Schema

def radio : Schema :=
  NameMap.ofList
    [("freq", .ofKind .double), ("modem", .ofKind .text), ("bw", .ofKind .double),
      ("mono", .ofKind .bool), ("program", .ofKind .uint), ("lna_state", .ofKind .uint),
      ("mode", .ofKind .uint)]

/-- Checks every range in the order of the names. -/
def validate (schema : Schema) : Except RangeError Unit :=
  schema.entries.forM fun (name, spec) ↦ spec.check name

/-- The validator of a named control, if it has a range. -/
def validator? (schema : Schema) (name : String) (t : Storage) : Option (Validator t) :=
  (schema.get? name).bind (·.validator? t)

/-- Whether two schemas name the same controls with agreeing specifications. -/
def same (a b : Schema) : Bool :=
  NameMap.agree Spec.same a b

end Schema

end SignalFlow.Control
