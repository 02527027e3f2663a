import SignalFlow.Proofs.Graph.Posting
import SignalFlow.Proofs.Graph.Threads

/-!
# What an iteration does with values from outside

A thread takes all that waits for its subgraph and attempts to set the controls of its nodes, one
after the other, before it looks at the queue that feeds it. Since only deliveries for nodes of
the subgraph wait for it, none of them is lost.
-/

namespace SignalFlow

open Control

def Delivery.isFor (d : Delivery) (ref : PortRef) : Bool :=
  d.binding.node = ref.node ∧ d.binding.port = ref.port

theorem filter_isFor (deliveries : List Delivery) (ref : PortRef) :
    deliveries.filter (·.isFor ref) =
      (deliveries.filter (·.binding.node = ref.node)).filter (·.binding.port = ref.port) := by
  rw [List.filter_filter]
  refine List.filter_congr fun d _ ↦ ?_
  rw [Delivery.isFor, Bool.decide_and, Bool.and_comm]

namespace Delivery

def refusal {ω : Type} (d : Delivery) (fault : Fault) : Report ω :=
  .rejected d.name d.binding.node d.binding.port fault

/-- What is reported of a delivery for a node that the thread has. -/
def reports {ω : Type} (d : Delivery) (outcome : List ω × Except Fault Unit) : List (Report ω) :=
  outcome.1.map (.notice <| .event ·) ++
    [match outcome.2 with
    | .ok () => .applied d.name d.value
    | .error fault => d.refusal fault]

theorem rejected_mem_reports_iff {ω : Type} {d : Delivery} {outcome : List ω × Except Fault Unit}
    {name : String} {node : NodeId} {port : Nat} {fault : Fault} :
    .rejected name node port fault ∈ d.reports outcome ↔ name = d.name ∧ node = d.binding.node ∧
      port = d.binding.port ∧ outcome.2 = .error fault := by
  obtain ⟨events, _ | ⟨⟩⟩ := outcome <;> simp [reports, refusal, eq_comm]

end Delivery

namespace Graph

variable {σ ω : Type} {g g' : Graph σ ω} {t : Topology} {run : Run}

/-- The graph after an attempt to set a control. -/
def attempt (g : Graph σ ω) (d : Delivery) : Graph σ ω :=
  g.modifyNode d.binding.node fun n ↦ { n with ports := (d.binding.apply n.ports d.value).1 }

/-- The deliveries that a thread attempts, which are those for nodes that it has. -/
def attempts (g : Graph σ ω) (run : Run) (deliveries : List Delivery) : List Delivery :=
  deliveries.filter fun d ↦ d.binding.node ∈ run.order ∧ (g.slot? d.binding.node).isSome

theorem modifyNode_congr {id : NodeId} {change change' : Node σ ω → Node σ ω}
    (h : ∀ slot, g.slot? id = some slot → change slot.node = change' slot.node) :
    g.modifyNode id change = g.modifyNode id change' := by
  unfold modifyNode
  congr 1
  apply List.ext_getElem?
  intro k
  rw [List.getElem?_modify, List.getElem?_modify]
  by_cases hk : id.index = k
  · subst hk
    simp only [if_true]
    cases hslot : g.slots[id.index]? with
    | none => rfl
    | some slot => exact congrArg (fun n ↦ some { slot with node := n }) (h slot hslot)
  · simp only [if_neg hk]

theorem modifyNode_eq_self {id : NodeId} {change : Node σ ω → Node σ ω}
    (h : ∀ slot, g.slot? id = some slot → change slot.node = slot.node) :
    g.modifyNode id change = g := by
  calc g.modifyNode id change
    _ = g.modifyNode id fun n ↦ n := modifyNode_congr h
    _ = g := congrArg (fun slots ↦ { g with slots }) (List.modify_id id.index g.slots)

/-- Changes of two nodes commute, and so do changes of one node that commute there. -/
theorem modifyNode_comm (g : Graph σ ω) {a b : NodeId} (change change' : Node σ ω → Node σ ω)
    (h : a = b → ∀ n, change' (change n) = change (change' n)) :
    (g.modifyNode a change).modifyNode b change' =
      (g.modifyNode b change').modifyNode a change := by
  have hslots := modify_comm g.slots (fun slot : Slot σ ω ↦ { slot with node := change slot.node })
    (fun slot ↦ { slot with node := change' slot.node }) fun hindex slot ↦
      congrArg (fun n ↦ { slot with node := n }) (h (congrArg NodeId.mk hindex) slot.node)
  exact congrArg (fun slots ↦ { g with slots }) hslots

/-- Delivering a value is attempting it if the thread has the node. -/
theorem fst_deliver (g : Graph σ ω) (run : Run) (d : Delivery) : (g.deliver run d).1 =
    if d.binding.node ∈ run.order ∧ (g.slot? d.binding.node).isSome then g.attempt d else g := by
  unfold deliver
  by_cases hnode : d.binding.node ∈ run.order
  · cases hslot : g.slot? d.binding.node with
    | none => simp [hnode]
    | some slot =>
      simp only [hnode, if_true, Option.isSome_some, and_self]
      refine modifyNode_congr fun slot' hslot' ↦ ?_
      rw [Option.some.inj (hslot'.symm.trans hslot)]
  · simp [hnode]

/-- A delivery is reported as its binding sees it if the thread has the node. -/
theorem snd_deliver (g : Graph σ ω) (run : Run) (d : Delivery) : (g.deliver run d).2 =
    (if d.binding.node ∈ run.order then g.slot? d.binding.node else none).elim
      [d.refusal (.foreignNode d.binding.node)]
      fun slot ↦ d.reports (d.binding.apply slot.node.ports d.value).2 := by
  unfold deliver
  generalize (if d.binding.node ∈ run.order then g.slot? d.binding.node else none) = found
  cases found <;> rfl

theorem slot?_attempt (g : Graph σ ω) (d : Delivery) (id : NodeId) : (g.attempt d).slot? id =
    if d.binding.node = id then (g.slot? id).map fun slot ↦ { slot with node := { slot.node with
      ports := (d.binding.apply slot.node.ports d.value).1 } } else g.slot? id :=
  slot?_modifyNode g _ id _

theorem role?_foldl_attempt (g : Graph σ ω) (deliveries : List Delivery) (id : NodeId) :
    (deliveries.foldl attempt g).role? id = g.role? id := by
  induction deliveries generalizing g with
  | nil => rfl
  | cons d rest ih =>
    calc
      (rest.foldl attempt (g.attempt d)).role? id = (g.attempt d).role? id := ih _
      _ = g.role? id := by
        rw [role?, slot?_attempt, role?]
        split
        · rw [Option.map_map]
          rfl
        · rfl

theorem isSome_slot?_attempt (g : Graph σ ω) (d : Delivery) (id : NodeId) :
    ((g.attempt d).slot? id).isSome = (g.slot? id).isSome := by
  rw [attempt, slot?_modifyNode]
  split
  · exact Option.isSome_map
  · rfl

/-- Delivering values is attempting those for nodes that the thread has, in their order. -/
theorem fst_deliverAll (run : Run) (deliveries : List Delivery) (g : Graph σ ω) :
    (deliverAll run deliveries g).1 = (g.attempts run deliveries).foldl attempt g := by
  induction deliveries generalizing g with
  | nil => rfl
  | cons d rest ih =>
    calc
      (deliverAll run rest (g.deliver run d).1).1 =
          ((g.deliver run d).1.attempts run rest).foldl attempt (g.deliver run d).1 := ih _
      _ = (g.attempts run (d :: rest)).foldl attempt g := by
        rw [fst_deliver, attempts, attempts, List.filter_cons]
        split
        · next hnode =>
          rw [if_pos (decide_eq_true hnode), List.foldl_cons]
          simp only [isSome_slot?_attempt]
        · next hnode => rw [if_neg fun h ↦ hnode (of_decide_eq_true h)]

theorem run?_eq_some {s : SubgraphId} (h : g.run? s = some run) :
    run.subgraph = s ∧ ∃ runs, g.runs = some runs ∧ run ∈ runs := by
  have hsubgraph := List.find?_some h
  refine ⟨by simpa using hsubgraph, ?_⟩
  have hmem := List.mem_of_find?_eq_some h
  cases hruns : g.runs with
  | none =>
    rw [hruns] at hmem
    cases hmem
  | some runs =>
    rw [hruns] at hmem
    exact ⟨runs, rfl, hmem⟩

theorem Staffed.run?_of_mem (h : g.Staffed) {runs : List Run} (hruns : g.runs = some runs)
    (hrun : run ∈ runs) : g.run? run.subgraph = some run := by
  have hfound : (g.run? run.subgraph).isSome = true := by
    rw [run?, hruns, Option.getD_some, List.find?_isSome]
    exact ⟨run, hrun, beq_self_eq_true _⟩
  obtain ⟨found, hfound⟩ := Option.isSome_iff_exists.1 hfound
  obtain ⟨hsubgraph, runs', hruns', hfound'⟩ := run?_eq_some hfound
  obtain rfl := Option.some.inj (hruns.symm.trans hruns')
  rw [hfound, h.eq_of_subgraph_eq hruns hfound' hrun hsubgraph]

/-- The graph when a thread has attempted to set all that waits for it. -/
def caughtUp (g : Graph σ ω) (run : Run) : Graph σ ω :=
  (g.attempts run (g.partition.waiting run.subgraph.index)).foldl attempt
    { g with partition := (g.partition.receive run.subgraph).2 }

theorem fst_drain (g : Graph σ ω) (run : Run) : (g.drain run).1 = g.caughtUp run :=
  fst_deliverAll run _ _

theorem works_caughtUp (g : Graph σ ω) (run : Run) :
    Works { g with partition := (g.partition.receive run.subgraph).2 } (g.caughtUp run) := by
  rw [← fst_drain]
  exact .deliverAll run _ _

theorem role?_caughtUp (g : Graph σ ω) (run : Run) (id : NodeId) :
    (g.caughtUp run).role? id = g.role? id :=
  role?_foldl_attempt _ _ id

theorem sourceOf_caughtUp (g : Graph σ ω) (run : Run) : (g.caughtUp run).sourceOf = g.sourceOf :=
  (g.works_caughtUp run).sourceOf

theorem threadName_caughtUp (g : Graph σ ω) (run : Run) (s : SubgraphId) :
    (g.caughtUp run).threadName s = g.threadName s := by
  unfold caughtUp
  generalize g.attempts run (g.partition.waiting run.subgraph.index) = deliveries
  have hfold (g : Graph σ ω) : (deliveries.foldl attempt g).threadName s = g.threadName s := by
    induction deliveries generalizing g with
    | nil => rfl
    | cons d rest ih => exact ih (g.attempt d)
  exact hfold _

theorem queues_caughtUp (g : Graph σ ω) (run : Run) : (g.caughtUp run).queues = g.queues := by
  unfold caughtUp
  generalize g.attempts run (g.partition.waiting run.subgraph.index) = deliveries
  have hfold (g : Graph σ ω) : (deliveries.foldl attempt g).queues = g.queues := by
    induction deliveries generalizing g with
    | nil => rfl
    | cons d rest ih => exact ih (g.attempt d)
  exact hfold _

/-- A thread that catches up is starved exactly if it was before. -/
theorem isStarved_caughtUp (hp : g.partition.WellFormed) (run : Run) (s : SubgraphId) :
    (g.caughtUp run).isStarved s = g.isStarved s := by
  have hinbound : (g.caughtUp run).partition.inbound s = g.partition.inbound s := by
    rw [(g.works_caughtUp run).partition]
    have hreceive := Partition.SameTopology.receive g.partition run.subgraph
    exact hreceive.sameDivision.toGrows.inbound_eq hp.toForest s
  unfold isStarved
  rw [hinbound]
  simp only [queueShape, queue?, queues_caughtUp]

/-- All that waits for a subgraph is for nodes that its thread has. -/
theorem attempts_waiting (hg : g.Consistent t) (hstaffed : g.Staffed)
    (haddressed : g.partition.Addressed) {runs : List Run} (hruns : g.runs = some runs)
    (hrun : run ∈ runs) :
    g.attempts run (g.partition.waiting run.subgraph.index) =
      g.partition.waiting run.subgraph.index := by
  have hp := hg.represents.wellFormed
  refine List.filter_eq_self.2 fun d hd ↦ decide_eq_true ?_
  have hof : g.subgraphOf d.binding.node = some run.subgraph := by
    have hof := haddressed _ d hd
    rwa [Partition.find_of_survives (hstaffed.survives hp hruns hrun)] at hof
  constructor
  · exact (hstaffed.mem_order_iff hp hruns hrun).2 hof
  · rw [slot?, List.getElem?_eq_getElem (hg.index_lt hof)]
    rfl

section Iterate

variable [Behaviour σ ω]

theorem fst_iterate (halive : run.alive = true) :
    (g.iterate run).1 = ((g.caughtUp run).advance run).1 := by
  rw [← fst_drain, iterate, if_neg (by simp [halive])]

theorem works_iterate (halive : run.alive = true) :
    Works { g with partition := (g.partition.receive run.subgraph).2 } (g.iterate run).1 := by
  rw [fst_iterate halive]
  exact (g.works_caughtUp run).trans (.advance _ run)

/-- A thread without data goes no further than its controls. -/
theorem fst_iterate_of_isStarved (hp : g.partition.WellFormed) (halive : run.alive = true)
    (hstarved : g.isStarved run.subgraph = true) : (g.iterate run).1 = g.caughtUp run := by
  rw [fst_iterate halive, advance, if_neg (by simp [halive]), if_pos]
  rw [isStarved_caughtUp hp, hstarved]

end Iterate

end Graph

end SignalFlow
