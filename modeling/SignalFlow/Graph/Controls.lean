import SignalFlow.Graph.Basic

/-!
# Names for controls

Control ports are bound to names while the graph is stopped. Values are posted at any time;
they wait for the subgraphs of the bound nodes, which apply them at the top of their next
iteration. A handle keeps the routes of the time when it was taken.
-/

namespace SignalFlow.Graph

open Control

variable {σ ω : Type}

/-- Binds a control port, which must hold the given storage type, to a name. -/
def bind (g : Graph σ ω) (ref : PortRef) (name : String) (storage : Storage)
    (validator : Option (Validator storage)) : Except GraphError (Graph σ ω) := do
  if g.isRunning then .error .frozen
  match (← g.node ref.node).ports[ref.port]? with
  | none => .error (.port ref (.noSuchPort ref.port))
  | some (.control c) =>
    if c.storage = storage then
      let bound := (g.bindings.get? name).getD []
      let binding := ⟨ref.node, ref.port, storage, validator⟩
      return { g with bindings := g.bindings.insert name (bound ++ [binding]) }
    else .error (.binding name ref (.wrongControlType storage c.storage))
  | some _ => .error (.binding name ref (.notAControl ref.port))

def unbindAll (g : Graph σ ω) : Except GraphError (Graph σ ω) :=
  if g.isRunning then .error .frozen else .ok { g with bindings := .empty }

/-- The routes to the bound controls as they are now. -/
def handle (g : Graph σ ω) : Handle :=
  .ofList (g.bindings.entries.map fun (name, bound) ↦
    (name, bound.map fun b ↦ ⟨b, g.subgraphOf b.node⟩))

/-- Posts updates by a handle: one batch for each subgraph that they reach. The result is the
number of batches, or the first control that is in no subgraph; the others are served all the
same. -/
def postThrough (g : Graph σ ω) (h : Handle) (updates : Updates) :
    Graph σ ω × Except GraphError Nat :=
  let ids := h.reached updates
  let partition := ids.foldl (fun p id ↦ p.send id (h.batch updates id)) g.partition
  ({ g with partition },
    match h.unreached? updates with
    | some (name, node) => .error (.invalidControlNode name node)
    | none => .ok ids.length)

def post (g : Graph σ ω) (updates : Updates) : Graph σ ω × Except GraphError Nat :=
  g.postThrough g.handle updates

end SignalFlow.Graph
