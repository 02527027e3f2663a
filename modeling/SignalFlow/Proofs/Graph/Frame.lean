import SignalFlow.Graph.Controls
import SignalFlow.Graph.Execution
import SignalFlow.Graph.Wiring
import SignalFlow.Proofs.Except
import SignalFlow.Proofs.Node.Act
import SignalFlow.Proofs.Partition.Division

/-!
# What operations leave alone

Only connections change the topology of a graph. Running it moves data and batches, and adding
nodes or queues leaves those that are there. Writers and readers of queues stay what they are.
-/

namespace SignalFlow.Graph

open Control

variable {σ ω : Type} {g g' g'' : Graph σ ω}

/-- What a node is there for. -/
def role? (g : Graph σ ω) (id : NodeId) : Option (Role σ) :=
  (g.slot? id).map (·.node.role)

theorem role?_of_slot? {id : NodeId} {slot : Slot σ ω} (h : g.slot? id = some slot) :
    g.role? id = some slot.node.role := by
  rw [role?, h, Option.map_some]

theorem slot?_modifyNode (g : Graph σ ω) (id other : NodeId) (change : Node σ ω → Node σ ω) :
    (g.modifyNode id change).slot? other = if id = other then
      (g.slot? other).map fun slot ↦ { slot with node := change slot.node } else g.slot? other := by
  unfold slot? modifyNode
  rw [List.getElem?_modify]
  by_cases h : id = other
  · subst h
    simp only [if_true]
    rfl
  · have hindex : id.index ≠ other.index := fun heq ↦ h (congrArg NodeId.mk heq)
    simp only [if_neg h, if_neg hindex]
    exact congrFun Option.map_id_fun _

/-- A graph with the nodes, queues, writers and readers of another one, and perhaps more. -/
structure Grows (g g' : Graph σ ω) : Prop where
  nodeCount_le : g.nodeCount ≤ g'.nodeCount
  queues_le : g.queues.length ≤ g'.queues.length
  hidden : ∀ {id role}, role.isHidden → g.role? id = some role → g'.role? id = some role

/-- A graph that has grown without a connection. -/
structure SameTopology (g g' : Graph σ ω) : Prop extends Grows g g' where
  partition : g.partition.SameTopology g'.partition

namespace Grows

protected theorem refl (g : Graph σ ω) : g.Grows g :=
  ⟨le_rfl, le_rfl, fun _ h ↦ h⟩

protected theorem trans (h : g.Grows g') (h' : g'.Grows g'') : g.Grows g'' where
  nodeCount_le := h.nodeCount_le.trans h'.nodeCount_le
  queues_le := h.queues_le.trans h'.queues_le
  hidden hidden hrole := h'.hidden hidden (h.hidden hidden hrole)

theorem congr (h : g.Grows g') (hslots : g''.slots = g'.slots) (hqueues : g''.queues = g'.queues) :
    g.Grows g'' where
  nodeCount_le := by
    rw [nodeCount, nodeCount, hslots]
    exact h.nodeCount_le
  queues_le := by
    rw [hqueues]
    exact h.queues_le
  hidden {id role} := by
    rw [show g''.role? id = g'.role? id by rw [role?, role?, slot?, slot?, hslots]]
    exact h.hidden

/-- A change of nodes that leaves the roles of writers and readers alone. -/
theorem of_slots (hlength : g.slots.length ≤ g'.slots.length)
    (hqueues : g.queues.length ≤ g'.queues.length)
    (hrole : ∀ id slot, g.slot? id = some slot →
      ∃ slot', g'.slot? id = some slot' ∧
        (slot.node.role.isHidden → slot'.node.role = slot.node.role)) : g.Grows g' where
  nodeCount_le := hlength
  queues_le := hqueues
  hidden {id role} hidden h := by
    obtain ⟨slot, hslot, heq⟩ := Option.map_eq_some_iff.1 h
    obtain ⟨slot', hslot', heq'⟩ := hrole id slot hslot
    rw [role?, hslot', Option.map_some, heq' (heq ▸ hidden), heq]

theorem modifySlot (g : Graph σ ω) (id : NodeId) {change : Slot σ ω → Slot σ ω}
    (hrole : ∀ slot, g.slot? id = some slot → slot.node.role.isHidden →
      (change slot).node.role = slot.node.role) :
    g.Grows { g with slots := g.slots.modify id.index change } := by
  refine of_slots (List.length_modify ..).ge le_rfl fun other slot hslot ↦ ?_
  rw [slot?] at hslot ⊢
  rw [List.getElem?_modify, hslot]
  by_cases heq : id.index = other.index
  · have hid : id = other := congrArg NodeId.mk heq
    exact ⟨change slot, by simp [heq], hrole slot (by rw [slot?, hid, hslot])⟩
  · exact ⟨slot, by simp [heq], fun _ ↦ rfl⟩

theorem push [Behaviour σ ω] (g : Graph σ ω) (ports : List (PortSpec ω)) (role : Role σ) :
    g.Grows (g.push ports role).2 := by
  refine of_slots (by simp [Graph.push]) le_rfl fun id slot hslot ↦ ⟨slot, ?_, fun _ ↦ rfl⟩
  rw [slot?] at hslot ⊢
  rw [Graph.push, List.getElem?_append_left (List.getElem?_eq_some_iff.1 hslot).1, hslot]

theorem addQueue (g : Graph σ ω) (type : DataType) (capacity : Nat) :
    g.Grows (g.addQueue type capacity).2 :=
  ⟨le_rfl, by simp [Graph.addQueue], fun _ h ↦ h⟩

end Grows

/-- A name gets one more binding, behind those that it has. -/
def bound (g : Graph σ ω) (name : String) (b : Binding) : Graph σ ω :=
  { g with bindings := g.bindings.insert name ((g.bindings.get? name).getD [] ++ [b]) }

theorem bind_eq_ok {ref : PortRef} {name : String} {storage : Storage}
    {validator : Option (Validator storage)} (h : g.bind ref name storage validator = .ok g') :
    g.isRunning = false ∧ g' = g.bound name ⟨ref.node, ref.port, storage, validator⟩ := by
  unfold bind at h
  simp only [Bind.bind, Except.bind, ite_error_eq_ok_iff] at h
  obtain ⟨n, -, hport⟩ := bind_eq_ok_iff.1 h.2
  refine ⟨by simpa using h.1, ?_⟩
  split at hport
  · cases hport
  · split at hport
    · cases hport
      rfl
    · cases hport
  · cases hport

theorem unbindAll_eq_ok_iff :
    g.unbindAll = .ok g' ↔ g.isRunning = false ∧ g' = { g with bindings := .empty } := by
  unfold unbindAll
  rw [ite_error_eq_ok_iff, Except.ok.injEq, Bool.not_eq_true]
  exact and_congr_right fun _ ↦ eq_comm

namespace SameTopology

protected theorem refl (g : Graph σ ω) : g.SameTopology g :=
  ⟨.refl g, .refl g.partition⟩

protected theorem trans (h : g.SameTopology g') (h' : g'.SameTopology g'') :
    g.SameTopology g'' :=
  ⟨h.toGrows.trans h'.toGrows, h.partition.trans h'.partition⟩

theorem congr (h : g.SameTopology g') (hslots : g''.slots = g'.slots)
    (hqueues : g''.queues = g'.queues) (hpartition : g'.partition.SameTopology g''.partition) :
    g.SameTopology g'' :=
  ⟨h.toGrows.congr hslots hqueues, h.partition.trans hpartition⟩

theorem add [Behaviour σ ω] (g : Graph σ ω) (ports : List (PortSpec ω)) (state : σ) :
    g.SameTopology (g.add ports state).2 :=
  ⟨.push g ports (.custom state), .refl g.partition⟩

theorem addQueue (g : Graph σ ω) (type : DataType) (capacity : Nat) :
    g.SameTopology (g.addQueue type capacity).2 :=
  ⟨.addQueue g type capacity, .refl g.partition⟩

theorem modifyQueue (g : Graph σ ω) (id : QueueId) (change : Queue Datum → Queue Datum) :
    g.SameTopology (g.modifyQueue id change) :=
  ⟨⟨le_rfl, (List.length_modify ..).ge, fun _ h ↦ h⟩, .refl g.partition⟩

theorem modifyNode (g : Graph σ ω) (id : NodeId) {change : Node σ ω → Node σ ω}
    (hrole : ∀ slot, g.slot? id = some slot → slot.node.role.isHidden →
      (change slot.node).role = slot.node.role) : g.SameTopology (g.modifyNode id change) :=
  ⟨.modifySlot g id hrole, .refl g.partition⟩

theorem setAvailable (g : Graph σ ω) (ids : List NodeId) (available : Bool) :
    g.SameTopology (g.setAvailable ids available) := by
  induction ids generalizing g with
  | nil => exact .refl g
  | cons id ids ih =>
    refine .trans ?_ (ih _)
    exact ⟨.modifySlot g id fun _ _ _ ↦ rfl, .refl g.partition⟩

theorem call [Behaviour σ ω] (g : Graph σ ω) (phase : Phase) (thread : Option String)
    (id : NodeId) : g.SameTopology (g.call phase thread id).1 := by
  unfold Graph.call
  split
  · exact .refl g
  · next slot hslot =>
    refine ⟨?_, .refl g.partition⟩
    have hnode (ports : List (Port PortRef ω)) : g.Grows (g.modifyNode id fun _ ↦ ⟨ports,
        ((slot.node.role.perform phase thread).run g.published
          ⟨slot.node.ports, g.queues⟩).1.2⟩) := by
      refine .modifySlot g id fun slot' hslot' hidden ↦ ?_
      obtain rfl : slot' = slot := Option.some.inj (hslot'.symm.trans hslot)
      exact Role.run_perform_of_isHidden g.published _ hidden phase thread
    exact
      { nodeCount_le := (hnode _).nodeCount_le
        queues_le := (Act.length_queues_run g.published _ ⟨slot.node.ports, g.queues⟩).ge
        hidden := (hnode _).hidden }

theorem callAll [Behaviour σ ω] (phase : Phase) (thread : String) (ids : List NodeId)
    (g : Graph σ ω) : g.SameTopology (Graph.callAll phase thread ids g).1 := by
  induction ids generalizing g with
  | nil => exact .refl g
  | cons id ids ih =>
    unfold Graph.callAll
    simp only
    split
    · exact (call g phase (some thread) id).trans (ih _)
    · exact call g phase (some thread) id

theorem bury (g : Graph σ ω) (id : SubgraphId) : g.SameTopology (g.bury id) :=
  .congr (.refl g) rfl rfl (.refl g.partition)

theorem callRun [Behaviour σ ω] (phase : Phase) (g : Graph σ ω) (run : Run) :
    g.SameTopology (Graph.callRun phase g run).1 := by
  have hall := callAll phase (g.threadName run.subgraph) run.order g
  unfold Graph.callRun
  simp only
  split
  · exact hall
  · exact hall.trans (bury _ _)

theorem eachRun {act : Graph σ ω → Run → Graph σ ω × List (Report ω)}
    (hact : ∀ (g : Graph σ ω) (run : Run), g.SameTopology (act g run).1) (runs : List Run)
    (g : Graph σ ω) : g.SameTopology (Graph.eachRun act runs g).1 := by
  induction runs generalizing g with
  | nil => exact .refl g
  | cons run runs ih => exact (hact g run).trans (ih _)

theorem deliver (g : Graph σ ω) (run : Run) (d : Delivery) :
    g.SameTopology (g.deliver run d).1 := by
  unfold Graph.deliver
  simp only
  split
  · exact .refl g
  · dsimp only
    exact modifyNode g d.binding.node fun _ _ _ ↦ rfl

theorem deliverAll (run : Run) (deliveries : List Delivery) (g : Graph σ ω) :
    g.SameTopology (Graph.deliverAll run deliveries g).1 := by
  induction deliveries generalizing g with
  | nil => exact .refl g
  | cons d deliveries ih => exact (deliver g run d).trans (ih _)

theorem drain (g : Graph σ ω) (run : Run) : g.SameTopology (g.drain run).1 := by
  refine .trans ?_ (deliverAll run _ _)
  exact .congr (.refl g) rfl rfl (.receive g.partition run.subgraph)

theorem cycle [Behaviour σ ω] (g : Graph σ ω) (run : Run) :
    g.SameTopology (g.cycle run).1 := by
  have hreset := callAll .reset (g.threadName run.subgraph) run.order g
  unfold Graph.cycle
  simp only
  split
  · exact hreset.trans (callAll ..)
  · exact hreset

theorem advance [Behaviour σ ω] (g : Graph σ ω) (run : Run) :
    g.SameTopology (g.advance run).1 := by
  unfold Graph.advance
  split
  · exact .refl g
  · split
    · exact .refl g
    · simp only
      split
      · exact cycle g run
      · exact (cycle g run).trans (bury _ _)

theorem iterate [Behaviour σ ω] (g : Graph σ ω) (run : Run) :
    g.SameTopology (g.iterate run).1 := by
  unfold Graph.iterate
  split
  · exact .refl g
  · exact (drain g run).trans (advance _ run)

theorem stop [Behaviour σ ω] (g : Graph σ ω) : g.SameTopology g.stop.1 := by
  have hdestroy (g : Graph σ ω) (run : Run) : g.SameTopology
      (if run.alive then Graph.callRun .destroy g run else (g, [])).1 := by
    split
    · exact callRun .destroy g run
    · exact .refl g
  unfold Graph.stop
  exact ((eachRun hdestroy (g.runs.getD []) g).trans (setAvailable _ _ true)).congr rfl rfl
    (.refl _)

theorem launch [Behaviour σ ω] (g : Graph σ ω) (runs : List Run) :
    g.SameTopology (g.launch runs).1 := by
  refine .trans ?_ (eachRun (callRun .init) runs _)
  exact (setAvailable g _ false).congr rfl rfl (.refl _)

theorem start [Behaviour σ ω] (g : Graph σ ω) (spawner : Spawner) :
    g.SameTopology (g.start spawner).1 := by
  have hforward : g.SameTopology { g with partition := g.partition.forwardAll } :=
    .congr (.refl g) rfl rfl (.forwardAll g.partition)
  unfold Graph.start
  split
  · exact .refl g
  · simp only
    split
    · exact hforward
    · split
      · exact hforward
      · next runs _ =>
        split
        · exact hforward.trans (setAvailable _ _ false)
        · have hlaunch := hforward.trans (launch _ (runs.takeWhile fun run ↦
            spawner.grants run.subgraph))
          split
          · exact hlaunch.congr rfl rfl (.refl _)
          · split
            · exact hlaunch
            · exact hlaunch.trans (stop _)

theorem postThrough (g : Graph σ ω) (handle : Handle) (updates : Updates) :
    g.SameTopology (g.postThrough handle updates).1 := by
  have hsend (ids : List SubgraphId) (p : Partition Batch) :
      p.SameTopology (ids.foldl (fun p id ↦ p.send id (handle.batch updates id)) p) := by
    induction ids generalizing p with
    | nil => exact .refl p
    | cons id ids ih => exact (Partition.SameTopology.send p id _).trans (ih _)
  exact .congr (.refl g) rfl rfl (hsend _ g.partition)

end SameTopology

end SignalFlow.Graph
