import SignalFlow.NameMap
import SignalFlow.Port

/-!
# Bindings of controls to names

A name is bound to any number of control ports. Values that are posted under a name reach all
of them. A batch holds what one posting has for one subgraph; it is applied where the
subgraph runs, and a control that refuses its value does not keep the others from theirs.
-/

namespace SignalFlow

open Control

/-- A control port with the storage type that it is bound as, and a validator if any. -/
structure Binding where
  node : NodeId
  port : Nat
  storage : Storage
  validator : Option (Validator storage)

namespace Binding

variable {κ ω : Type}

/-- Converts and validates a value. -/
def accept (b : Binding) (value : Value) : Except Fault b.storage.Carrier := do
  let data ← b.storage.ofValue value
  match b.validator with
  | none => return data
  | some validate =>
    match validate data with
    | .ok data => return data
    | .error panic => .error (.panicked panic.text)

/-- Sets the bound control among the ports of its node: the ports behind, what the observer
reports, and whether the value was taken. -/
def apply (b : Binding) (ports : List (Port κ ω)) (value : Value) :
    List (Port κ ω) × List ω × Except Fault Unit :=
  match ports[b.port]? with
  | some (.control c) =>
    if same : b.storage = c.storage then
      match b.accept value with
      | .error fault => (ports, [], .error fault)
      | .ok data =>
        let (c, reaction) := c.set (same ▸ data)
        (ports.set b.port (.control c), reaction.reports,
          match reaction.panic with
          | none => .ok ()
          | some panic => .error (.panicked panic.text))
    else (ports, [], .error (.wrongControlType b.storage c.storage))
  | _ => (ports, [], .error (.notAControl b.port))

end Binding

/-- A value on its way to a bound control. -/
structure Delivery where
  name : String
  value : Value
  binding : Binding

/-- What one posting has for one subgraph. -/
abbrev Batch := List Delivery

/-- A bound control with the subgraph that its node was in when the handle was taken. -/
structure Route where
  binding : Binding
  subgraph : Option SubgraphId

/-- The routes of every bound name, which can be posted to without the graph. -/
abbrev Handle := NameMap (List Route)

namespace Handle

/-- The routes that updates go, by name and then in the order of binding. -/
def routed (h : Handle) (updates : Updates) : List (String × Value × Route) :=
  updates.entries.flatMap fun (name, value) ↦
    ((h.get? name).getD []).map fun route ↦ (name, value, route)

/-- Puts an identifier at its place in an ascending list, unless it is there. -/
def insertId (id : SubgraphId) : List SubgraphId → List SubgraphId
  | [] => [id]
  | first :: rest =>
    if id.index < first.index then id :: first :: rest
    else if id = first then first :: rest
    else first :: insertId id rest

/-- The subgraphs that updates reach, in ascending order. -/
def reached (h : Handle) (updates : Updates) : List SubgraphId :=
  (h.routed updates).foldr (fun (_, _, route) ids ↦ route.subgraph.elim ids (insertId · ids)) []

def batch (h : Handle) (updates : Updates) (id : SubgraphId) : Batch :=
  (h.routed updates).filterMap fun (name, value, route) ↦
    if route.subgraph = some id then some ⟨name, value, route.binding⟩ else none

/-- The first name and node that updates do not reach, since the node is in no subgraph. -/
def unreached? (h : Handle) (updates : Updates) : Option (String × NodeId) :=
  (h.routed updates).findSome? fun (name, _, route) ↦
    if route.subgraph = none then some (name, route.binding.node) else none

end Handle

end SignalFlow
