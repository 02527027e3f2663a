import Mathlib.Data.List.TakeWhile
import SignalFlow.Proofs.Graph.Frame
import SignalFlow.Proofs.Node.Storing
import SignalFlow.Proofs.Schedule

/-!
# What the threads leave alone

The calls of nodes and the values that are set to controls move data. They touch neither the
partition nor the bindings nor what inputs are attached to, and a thread keeps its subgraph and
its nodes for the whole run. These nodes are those of the subgraph.
-/

namespace SignalFlow.Graph

variable {σ ω : Type} {g g' g'' : Graph σ ω}

/-- The output that a port reads, if it is an input that is attached. -/
def sourceOf (g : Graph σ ω) (ref : PortRef) : Option PortRef :=
  (g.slot? ref.node).bind fun slot ↦ sources slot.node.ports ref.port

/-- The subgraph of a run with the nodes that its thread calls. -/
def duty (run : Run) : SubgraphId × List NodeId :=
  (run.subgraph, run.order)

/-- The duties of the threads, if the graph runs. -/
def duties (g : Graph σ ω) : Option (List (SubgraphId × List NodeId)) :=
  g.runs.map (·.map duty)

/-- A graph in which nodes were called or controls were set, or to which new ones came. -/
structure Works (g g' : Graph σ ω) : Prop where
  partition : g'.partition = g.partition
  bindings : g'.bindings = g.bindings
  options : g'.options = g.options
  duties : g'.duties = g.duties
  nodeCount_le : g.nodeCount ≤ g'.nodeCount
  sourceOf : g'.sourceOf = g.sourceOf

namespace Works

protected theorem refl (g : Graph σ ω) : g.Works g :=
  ⟨rfl, rfl, rfl, rfl, le_rfl, rfl⟩

protected theorem trans (h : g.Works g') (h' : g'.Works g'') : g.Works g'' where
  partition := h'.partition.trans h.partition
  bindings := h'.bindings.trans h.bindings
  options := h'.options.trans h.options
  duties := h'.duties.trans h.duties
  nodeCount_le := h.nodeCount_le.trans h'.nodeCount_le
  sourceOf := h'.sourceOf.trans h.sourceOf

theorem modifySlot (g : Graph σ ω) (id : NodeId) {change : Slot σ ω → Slot σ ω}
    (hsources : ∀ slot, g.slot? id = some slot →
      sources (change slot).node.ports = sources slot.node.ports) :
    g.Works { g with slots := g.slots.modify id.index change } where
  partition := rfl
  bindings := rfl
  options := rfl
  duties := rfl
  nodeCount_le := (List.length_modify ..).ge
  sourceOf := by
    funext ref
    unfold Graph.sourceOf slot?
    rw [List.getElem?_modify]
    cases hslot : g.slots[ref.node.index]? with
    | none => rfl
    | some slot =>
      by_cases h : id.index = ref.node.index
      · have hchange := hsources slot (by rw [slot?, h, hslot])
        simp [h, hchange]
      · simp [h]

theorem modifyNode (g : Graph σ ω) (id : NodeId) {change : Node σ ω → Node σ ω}
    (hsources : ∀ slot, g.slot? id = some slot →
      sources (change slot.node).ports = sources slot.node.ports) :
    g.Works (g.modifyNode id change) :=
  modifySlot g id hsources

theorem withQueues (g : Graph σ ω) (queues : List DataQueue) : g.Works { g with queues } :=
  ⟨rfl, rfl, rfl, rfl, le_rfl, rfl⟩

theorem push [Behaviour σ ω] (g : Graph σ ω) (ports : List (PortSpec ω)) (role : Role σ) :
    g.Works (g.push ports role).2 where
  partition := rfl
  bindings := rfl
  options := rfl
  duties := rfl
  nodeCount_le := by simp [Graph.push, nodeCount]
  sourceOf := by
    funext ref
    unfold Graph.sourceOf slot? Graph.push
    rw [List.getElem?_append]
    split
    · rfl
    · next hge =>
      rw [List.getElem?_eq_none (Nat.not_lt.1 hge), List.getElem?_singleton]
      split
      · exact sources_ofSpecs ports ref.port
      · rfl

theorem setAvailable (g : Graph σ ω) (ids : List NodeId) (available : Bool) :
    g.Works (g.setAvailable ids available) := by
  induction ids generalizing g with
  | nil => exact .refl g
  | cons id ids ih =>
    refine .trans ?_ (ih _)
    exact modifySlot g id fun _ _ ↦ rfl

theorem bury (g : Graph σ ω) (id : SubgraphId) : g.Works (g.bury id) where
  partition := rfl
  bindings := rfl
  options := rfl
  duties := by
    unfold Graph.duties Graph.bury
    rw [Option.map_map]
    congr 1
    funext runs
    rw [Function.comp, List.map_map]
    refine List.map_congr_left fun run _ ↦ ?_
    rw [Function.comp]
    split <;> rfl
  nodeCount_le := le_rfl
  sourceOf := rfl

theorem eachRun {act : Graph σ ω → Run → Graph σ ω × List (Report ω)}
    (hact : ∀ (g : Graph σ ω) (run : Run), g.Works (act g run).1) (runs : List Run)
    (g : Graph σ ω) : g.Works (Graph.eachRun act runs g).1 := by
  induction runs generalizing g with
  | nil => exact .refl g
  | cons run runs ih => exact (hact g run).trans (ih _)

theorem deliver (g : Graph σ ω) (run : Run) (d : Delivery) : g.Works (g.deliver run d).1 := by
  unfold Graph.deliver
  simp only
  split
  · exact .refl g
  · next slot hslot =>
    dsimp only
    refine modifyNode g d.binding.node fun slot' hslot' ↦ ?_
    have hsame : slot' = slot := by
      split at hslot
      · exact Option.some.inj (hslot'.symm.trans hslot)
      · cases hslot
    rw [hsame]
    exact d.binding.sources_apply slot.node.ports d.value

theorem deliverAll (run : Run) (deliveries : List Delivery) (g : Graph σ ω) :
    g.Works (Graph.deliverAll run deliveries g).1 := by
  induction deliveries generalizing g with
  | nil => exact .refl g
  | cons d deliveries ih => exact (deliver g run d).trans (ih _)

section Calls

variable [Behaviour σ ω]

theorem call (g : Graph σ ω) (phase : Phase) (thread : Option String) (id : NodeId) :
    g.Works (g.call phase thread id).1 := by
  unfold Graph.call
  split
  · exact .refl g
  · next slot hslot =>
    refine .trans (modifyNode g id fun slot' hslot' ↦ ?_) (withQueues _ _)
    obtain rfl : slot' = slot := Option.some.inj (hslot'.symm.trans hslot)
    exact Act.sources_run g.published _ _

theorem callAll (phase : Phase) (thread : String) (ids : List NodeId) (g : Graph σ ω) :
    g.Works (Graph.callAll phase thread ids g).1 := by
  induction ids generalizing g with
  | nil => exact .refl g
  | cons id ids ih =>
    unfold Graph.callAll
    simp only
    split
    · exact (call g phase (some thread) id).trans (ih _)
    · exact call g phase (some thread) id

theorem callRun (phase : Phase) (g : Graph σ ω) (run : Run) :
    g.Works (Graph.callRun phase g run).1 := by
  have hall := callAll phase (g.threadName run.subgraph) run.order g
  unfold Graph.callRun
  simp only
  split
  · exact hall
  · exact hall.trans (bury _ _)

theorem cycle (g : Graph σ ω) (run : Run) : g.Works (g.cycle run).1 := by
  have hreset := callAll .reset (g.threadName run.subgraph) run.order g
  unfold Graph.cycle
  simp only
  split
  · exact hreset.trans (callAll ..)
  · exact hreset

theorem advance (g : Graph σ ω) (run : Run) : g.Works (g.advance run).1 := by
  unfold Graph.advance
  split
  · exact .refl g
  · split
    · exact .refl g
    · simp only
      split
      · exact cycle g run
      · exact (cycle g run).trans (bury _ _)

theorem destroy (g : Graph σ ω) (run : Run) :
    g.Works (if run.alive then Graph.callRun .destroy g run else (g, [])).1 := by
  split
  · exact callRun .destroy g run
  · exact .refl g

end Calls

end Works

/-! ## Starting and stopping -/

section Runs

variable [Behaviour σ ω]

/-- The graph with the batches of merged subgraphs where they belong. -/
def forwarded (g : Graph σ ω) : Graph σ ω :=
  { g with partition := g.partition.forwardAll }

/-- The graph whose nodes are away with the given runs. -/
def manned (g : Graph σ ω) (runs : List Run) : Graph σ ω :=
  { g.setAvailable (runs.flatMap (·.order)) false with runs := some runs }

/-- The graph whose threads have initialised their nodes. -/
def initialised (g : Graph σ ω) (runs : List Run) : Graph σ ω :=
  (eachRun (callRun .init) runs (g.manned runs)).1

theorem works_initialised (g : Graph σ ω) (runs : List Run) :
    (g.manned runs).Works (g.initialised runs) :=
  .eachRun (.callRun .init) runs _

def relieved (g : Graph σ ω) : Graph σ ω :=
  { g with runs := none }

omit [Behaviour σ ω] in
theorem Works.relieved (h : g.Works g') : g.relieved.Works g'.relieved :=
  ⟨h.partition, h.bindings, h.options, rfl, h.nodeCount_le, h.sourceOf⟩

theorem works_stop (g : Graph σ ω) : g.relieved.Works g.stop.1 :=
  ((Works.eachRun Works.destroy (g.runs.getD []) g).trans (.setAvailable _ _ true)).relieved

/-- The runs that get their threads before the system refuses one. -/
def granted (spawner : Spawner) (runs : List Run) : List Run :=
  runs.takeWhile fun run ↦ spawner.grants run.subgraph

theorem granted_sublist (spawner : Spawner) (runs : List Run) :
    (granted spawner runs).Sublist runs :=
  List.takeWhile_sublist _

omit [Behaviour σ ω] in
theorem granted_eq_self {spawner : Spawner} {runs : List Run}
    (h : ∀ run ∈ runs, spawner.refusal run.subgraph = none) : granted spawner runs = runs :=
  List.takeWhile_eq_self_iff.2 fun run hrun ↦ Option.isNone_iff_eq_none.2 (h run hrun)

/-- The runs that a stopped graph is to have. -/
structure Plans (g : Graph σ ω) (runs : List Run) : Prop where
  stopped : g.runs = none
  subgraphs : g.forwarded.subgraphs ≠ []
  plans : g.forwarded.subgraphs.mapM g.forwarded.plan = .ok runs

/-- What comes of a start. -/
inductive Starts (g : Graph σ ω) (spawner : Spawner) :
    Graph σ ω × Except (StartFault ω) (RunReports ω) → Prop
  | running (hrunning : g.isRunning = true) :
      Starts g spawner (g, .error (.failed .alreadyRunning [] []))
  | unplanned (hstopped : g.runs = none) (hnot : ∀ runs, ¬ g.Plans runs) (e : GraphError) :
      Starts g spawner (g.forwarded, .error (.failed e [] []))
  | unnamed {runs : List Run} (hplans : g.Plans runs)
      (hzero : '\x00' ∈ g.options.threadName.toList) (panic : Control.Panic) :
      Starts g spawner
        (g.forwarded.setAvailable (runs.flatMap (·.order)) false, .error (.panicked panic))
  | stuck {runs : List Run} (hplans : g.Plans runs)
      (hname : '\x00' ∉ g.options.threadName.toList)
      (hdead : (g.forwarded.initialised (granted spawner runs)).dead ≠ []) (reports) :
      Starts g spawner ((g.forwarded.initialised (granted spawner runs)).relieved,
        .error (.stuck reports (g.forwarded.initialised (granted spawner runs)).dead))
  | refused {runs : List Run} (hplans : g.Plans runs)
      (hname : '\x00' ∉ g.options.threadName.toList)
      (hdead : (g.forwarded.initialised (granted spawner runs)).dead = [])
      {reason : String}
      (hrefused : runs.findSome? (fun run ↦ spawner.refusal run.subgraph) = some reason)
      (reports) :
      Starts g spawner ((g.forwarded.initialised (granted spawner runs)).stop.1,
        .error (.failed (.spawn reason) reports
          (g.forwarded.initialised (granted spawner runs)).stop.2.2))
  | started {runs : List Run} (hplans : g.Plans runs)
      (hname : '\x00' ∉ g.options.threadName.toList)
      (hgranted : ∀ run ∈ runs, spawner.refusal run.subgraph = none)
      (hdead : (g.forwarded.initialised runs).dead = []) (reports) :
      Starts g spawner (g.forwarded.initialised runs, .ok reports)

theorem starts (g : Graph σ ω) (spawner : Spawner) : Starts g spawner (g.start spawner) := by
  unfold start
  split
  · next hrunning => exact .running hrunning
  · next hstopped =>
    have hstopped : g.runs = none := by simpa [isRunning] using hstopped
    simp only
    split
    · next hempty => exact .unplanned hstopped (fun _ h ↦ h.subgraphs (List.isEmpty_iff.1 hempty)) _
    · next hne =>
      have hne : g.forwarded.subgraphs ≠ [] := fun h ↦ hne (List.isEmpty_iff.2 h)
      split
      · next e herror =>
        refine .unplanned hstopped (fun runs h ↦ ?_) e
        cases herror.symm.trans h.plans
      · next runs hruns =>
        have hplans : g.Plans runs := ⟨hstopped, hne, hruns⟩
        split
        · next hzero => exact .unnamed hplans hzero _
        · next hname =>
          split
          · next hdead => exact .stuck hplans hname hdead _
          · next hdead =>
            have hdead : (g.forwarded.initialised (granted spawner runs)).dead = [] :=
              not_not.1 hdead
            split
            · next hgranted =>
              have hgranted := List.findSome?_eq_none_iff.1 hgranted
              have hall : granted spawner runs = runs := granted_eq_self hgranted
              have hbehind : (g.forwarded.launch (granted spawner runs)).1 =
                  g.forwarded.initialised runs := congrArg g.forwarded.initialised hall
              change Starts g spawner ((g.forwarded.launch (granted spawner runs)).1, _)
              rw [hbehind]
              exact .started hplans hname hgranted (hall ▸ hdead) _
            · next reason hrefused => exact .refused hplans hname hdead hrefused _

theorem start_of_running (h : g.isRunning = true) (spawner : Spawner) :
    g.start spawner = (g, .error (.failed .alreadyRunning [] [])) := by
  rw [start, if_pos h]

/-- A start of a stopped graph forwards batches, gives nodes to threads and has nodes called. -/
theorem works_start (hstopped : g.runs = none) (spawner : Spawner) :
    g.forwarded.relieved.Works (g.start spawner).1.relieved := by
  have hinitialised (runs : List Run) :
      g.forwarded.relieved.Works (g.forwarded.initialised runs).relieved := by
    have hmanned : g.forwarded.relieved.Works (g.forwarded.manned runs).relieved :=
      (Works.setAvailable g.forwarded _ false).relieved
    exact hmanned.trans (works_initialised g.forwarded runs).relieved
  have hstarts := g.starts spawner
  generalize g.start spawner = result at hstarts ⊢
  cases hstarts with
  | running hrunning => simp [isRunning, hstopped] at hrunning
  | unplanned => exact .refl _
  | unnamed => exact (Works.setAvailable g.forwarded _ false).relieved
  | stuck => exact hinitialised _
  | refused => exact (hinitialised _).trans (works_stop _)
  | started => exact hinitialised _

end Runs

end SignalFlow.Graph
