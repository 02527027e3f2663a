import SignalFlow.Demo.Node
import SignalFlow.Proofs.Graph.Targets

/-!
# What becomes of batches

A batch is sent to one entry. It waits there, or where the entry was merged into, until the thread
of the subgraph takes it. It only has values for nodes of that subgraph, and for controls that are
there unless somebody exchanged the ports of a node. So a thread refuses a value only for what the
value is, and sets no control of a node that is not its own.
-/

namespace SignalFlow

open Control

/-- The batches that were sent so far, and those that threads have taken to apply them. -/
structure Traffic where
  sent : List Batch
  drained : List Batch

namespace Motion

variable {p : Partition Batch} {t : Topology} {motion : Motion}

/-- The batches that a motion sends. -/
def sent : Motion → List Batch
  | .post handle updates => (handle.reached updates).map (handle.batch updates)
  | .rest | .connect _ | .drain _ | .forward => []

/-- The batches that a motion takes out. -/
def drained (p : Partition Batch) : Motion → List Batch
  | .drain s => (p.receive s).1
  | .rest | .connect _ | .post _ _ | .forward => []

/-- No motion loses a batch or makes two of one. -/
theorem load_apply (h : p.Addressed) (ht : p.Represents t) (hlegal : motion.Legal p) :
    p.load + motion.sent = motion.drained p + (motion.apply p).load := by
  cases motion with
  | rest => exact add_comm _ _
  | connect c =>
    rw [apply, (Partition.Shifts.extend h ht hlegal).load]
    exact add_comm _ _
  | post handle updates =>
    rw [apply, Partition.Leads.load_posted hlegal updates]
    exact (zero_add _).symm
  | drain s =>
    rw [p.load_receive s]
    exact add_zero _
  | forward =>
    rw [apply, ht.wellFormed.load_forwardAll]
    exact add_comm _ _

end Motion

namespace Traffic

def tally (p : Partition Batch) (traffic : Traffic) (motion : Motion) : Traffic where
  sent := traffic.sent ++ motion.sent
  drained := traffic.drained ++ motion.drained p

/-- Each batch that was sent waits for one entry, or was taken once. -/
def Conserved (p : Partition Batch) (traffic : Traffic) : Prop :=
  (traffic.sent : Multiset Batch) = traffic.drained + p.load

theorem Conserved.apply {p : Partition Batch} {t : Topology} {motion : Motion} {traffic : Traffic}
    (h : p.Addressed) (ht : p.Represents t) (hlegal : motion.Legal p)
    (hconserved : traffic.Conserved p) : (traffic.tally p motion).Conserved (motion.apply p) := by
  calc ((traffic.tally p motion).sent : Multiset Batch)
    _ = traffic.sent + motion.sent := (Multiset.coe_add _ _).symm
    _ = traffic.drained + (p.load + motion.sent) := by rw [hconserved, add_assoc]
    _ = (traffic.drained + motion.drained p) + (motion.apply p).load := by
      rw [Motion.load_apply h ht hlegal, add_assoc]
    _ = (traffic.tally p motion).drained + (motion.apply p).load := by
      rw [Multiset.coe_add]
      rfl

end Traffic

namespace Partition

variable {p : Partition Batch} {batch : Batch}

theorem mem_load : batch ∈ p.load ↔ ∃ i, batch ∈ (p.entry i).pending := by
  unfold load
  rw [Multiset.mem_sum]
  constructor
  · rintro ⟨i, -, hbatch⟩
    exact ⟨i, hbatch⟩
  · rintro ⟨i, hbatch⟩
    refine ⟨i, ?_, hbatch⟩
    rw [Finset.mem_range]
    by_contra hge
    rw [pending_of_length_le (Nat.not_lt.1 hge)] at hbatch
    cases hbatch

theorem mem_waiting {i : Nat} {d : Delivery} :
    d ∈ p.waiting i ↔ ∃ batch ∈ (p.entry i).pending, d ∈ batch :=
  List.mem_flatten

end Partition

/-- A value is never refused by its binding for where the node is. -/
theorem Binding.apply_ne_foreignNode {κ ω : Type} {b : Binding} {ports : List (Port κ ω)}
    {value : Value} {node : NodeId} : (b.apply ports value).2.2 ≠ .error (.foreignNode node) := by
  intro hfault
  by_cases hcontrol : (shapes ports)[b.port]? = some (.control b.storage)
  · rcases fault_of_apply hcontrol hfault with ⟨expected, found, h⟩ | ⟨message, h⟩
    · cases h
    · cases h
  · rw [apply_eq_of_not_control hcontrol] at hfault
    unfold mismatch at hfault
    split at hfault <;> cases hfault

namespace Graph

variable {σ ω : Type} [Behaviour σ ω] {g : Graph σ ω} {t : Topology} {taken : List Handle}
  {operation : Operation σ ω} {run : Run} {name : String} {node : NodeId}
  {port : Nat} {fault : Fault}

/-- A graph in which all that is bound, routed or on its way to a node is for controls of it. -/
structure Aims (g : Graph σ ω) (taken : List Handle) (node : NodeId) : Prop where
  bound : ∀ name, ∀ b ∈ g.boundTo name, b.node = node → g.Targets b
  routes : ∀ handle ∈ taken, ∀ name, ∀ route ∈ handle.routes name,
    route.binding.node = node → g.Targets route.binding
  waiting : ∀ batch ∈ g.partition.load, ∀ d ∈ batch, d.binding.node = node → g.Targets d.binding

omit [Behaviour σ ω] in
theorem aims_empty (options : Options) (node : NodeId) :
    (empty options : Graph σ ω).Aims [] node where
  bound := nofun
  routes := nofun
  waiting := by
    intro batch hbatch
    obtain ⟨i, hbatch⟩ := Partition.mem_load.1 hbatch
    cases hbatch

theorem exists_handle_of_mem_sent (htaken : ∀ handle updates, operation =
      .postThrough handle updates → handle ∈ g.handle :: taken) {batch : Batch}
    (hbatch : batch ∈ (operation.motion g).sent) :
    ∃ handle ∈ g.handle :: taken, ∃ updates s, batch = handle.batch updates s := by
  cases operation with
  | post updates =>
    obtain ⟨s, -, rfl⟩ := List.mem_map.1 hbatch
    exact ⟨g.handle, List.mem_cons_self, updates, s, rfl⟩
  | postThrough handle updates =>
    obtain ⟨s, -, rfl⟩ := List.mem_map.1 hbatch
    exact ⟨handle, htaken handle updates rfl, updates, s, rfl⟩
  | connect attempt =>
    simp only [Operation.motion] at hbatch
    split at hbatch <;> cases hbatch
  | iterate s =>
    simp only [Operation.motion] at hbatch
    split at hbatch <;> cases hbatch
  | start spawner =>
    simp only [Operation.motion] at hbatch
    split at hbatch <;> cases hbatch
  | _ => cases hbatch

namespace Aims

omit [Behaviour σ ω] in
/-- A handle that is taken now has what is bound now. -/
theorem routes_taken (h : g.Aims taken node) {handle : Handle}
    (hhandle : handle ∈ g.handle :: taken) {route : Route} (hroute : route ∈ handle.routes name)
    (hnode : route.binding.node = node) : g.Targets route.binding := by
  rcases List.mem_cons.1 hhandle with rfl | hhandle
  · rw [routes_handle] at hroute
    obtain ⟨b, hb, rfl⟩ := List.mem_map.1 hroute
    exact h.bound name b hb hnode
  · exact h.routes handle hhandle name route hroute hnode

theorem apply (h : g.Aims taken node) (hpostal : g.Postal taken) (hg : g.Consistent t)
    (hstaffed : g.Staffed) (htaken : ∀ handle updates, operation = .postThrough handle updates →
      handle ∈ g.handle :: taken) (hkeeps : operation.KeepsPorts g node) :
    (operation.apply g).Aims (g.handle :: taken) node := by
  have hstays {b : Binding} (hnode : b.node = node) (hb : g.Targets b) :
      (operation.apply g).Targets b := by
    subst hnode
    exact Operation.shapeOf_apply hkeeps hb
  constructor
  case bound =>
    intro name b hb hnode
    rcases Operation.targets_or_mem_boundTo hb with hold | hnew
    · exact hstays hnode (h.bound name b hold hnode)
    · exact hstays hnode hnew
  case routes =>
    intro handle hhandle name route hroute hnode
    exact hstays hnode (h.routes_taken hhandle hroute hnode)
  case waiting =>
    intro batch hbatch d hd hnode
    have hmoved := Motion.load_apply hpostal.addressed hg.represents
      (hpostal.legal hg hstaffed htaken)
    rw [← hg.partition_apply] at hmoved
    have hbefore : batch ∈ g.partition.load + (operation.motion g).sent := by
      rw [hmoved]
      exact Multiset.mem_add.2 (.inr hbatch)
    rcases Multiset.mem_add.1 hbefore with hold | hnew
    · exact hstays hnode (h.waiting batch hold d hd hnode)
    · obtain ⟨handle, hhandle, updates, s, rfl⟩ := exists_handle_of_mem_sent htaken hnew
      obtain ⟨name, value, route, hroute, -, rfl⟩ := Handle.exists_route_of_mem_batch hd
      exact hstays hnode (h.routes_taken hhandle hroute hnode)

end Aims

/-- Whether operations leave the kinds and types of the ports of a node alone. -/
def KeepsPorts (g : Graph σ ω) (node : NodeId) : List (Operation σ ω) → Prop
  | [] => True
  | operation :: rest => operation.KeepsPorts g node ∧ (operation.apply g).KeepsPorts node rest

theorem Aims.after (h : g.Aims taken node) (hpostal : g.Postal taken) (hg : g.Consistent t)
    (hstaffed : g.Staffed) {operations : List (Operation σ ω)}
    (htaken : g.TakesHandles taken operations) (hkeeps : g.KeepsPorts node operations) :
    ∃ taken', (g.after operations).Aims taken' node := by
  induction operations generalizing g t taken with
  | nil => exact ⟨taken, h⟩
  | cons operation rest ih =>
    exact ih (h.apply hpostal hg hstaffed htaken.1 hkeeps.1) (hpostal.apply hg hstaffed htaken.1)
      (hg.apply operation) (hstaffed.apply hg operation) htaken.2 hkeeps.2

omit [Behaviour σ ω] in
/-- A value for a node that the thread has is refused by its binding. -/
theorem fault_of_deliver {d : Delivery} (hnode : d.binding.node ∈ run.order) {slot : Slot σ ω}
    (hslot : g.slot? d.binding.node = some slot)
    (h : .rejected name node port fault ∈ (g.deliver run d).2) :
    node = d.binding.node ∧ (d.binding.apply slot.node.ports d.value).2.2 = .error fault := by
  rw [snd_deliver, if_pos hnode, hslot, Option.elim_some, Delivery.rejected_mem_reports_iff] at h
  exact ⟨h.2.1, h.2.2.2⟩

/-- Refused values are refused by their bindings, on ports as they are before the first of them. -/
theorem exists_fault_of_deliverAll {deliveries : List Delivery}
    (hattempts : ∀ d ∈ deliveries, d.binding.node ∈ run.order ∧ (g.slot? d.binding.node).isSome)
    (h : .rejected name node port fault ∈ (deliverAll run deliveries g).2) :
    ∃ d ∈ deliveries, d.binding.node = node ∧ ∃ ports : List (Port PortRef ω),
      (∀ k, (shapes ports)[k]? = g.shapeOf ⟨node, k⟩) ∧
        (d.binding.apply ports d.value).2.2 = .error fault := by
  induction deliveries generalizing g with
  | nil => cases h
  | cons d rest ih =>
    obtain ⟨hnode, hsome⟩ := hattempts d List.mem_cons_self
    obtain ⟨slot, hslot⟩ := Option.isSome_iff_exists.1 hsome
    have happend : .rejected name node port fault ∈
        (g.deliver run d).2 ++ (deliverAll run rest (g.deliver run d).1).2 := h
    rcases List.mem_append.1 happend with h | h
    · obtain ⟨rfl, hfault⟩ := fault_of_deliver hnode hslot h
      refine ⟨d, List.mem_cons_self, rfl, slot.node.ports, fun k ↦ ?_, hfault⟩
      rw [shapeOf, hslot]
      rfl
    · have hstep : Step (· ∈ run.order) g (g.attempt d) := .attempt g hnode
      rw [fst_deliver, if_pos ⟨hnode, hsome⟩] at h
      have hrest : ∀ later ∈ rest, later.binding.node ∈ run.order ∧
          ((g.attempt d).slot? later.binding.node).isSome := by
        intro later hlater
        rw [isSome_slot?_attempt]
        exact hattempts later (List.mem_cons_of_mem _ hlater)
      obtain ⟨d', hd', hnode', ports, hports, hfault⟩ := ih hrest h
      rw [shapeOf_congr (lasts_shapes.step hstep)] at hports
      exact ⟨d', List.mem_cons_of_mem _ hd', hnode', ports, hports, hfault⟩

theorem rejected_not_mem_callAll {phase : Phase} {thread : String} (ids : List NodeId)
    (g : Graph σ ω) : .rejected name node port fault ∉ (callAll phase thread ids g).2.1 := by
  induction ids generalizing g with
  | nil => exact List.not_mem_nil
  | cons id ids ih =>
    have hended (g : Graph σ ω) (ending : Except Stop Unit) :
        .rejected name node port fault ∉ (g.reportEnding phase thread id ending).1 := by
      unfold reportEnding
      split
      · exact List.not_mem_nil
      · split
        · exact List.not_mem_nil
        · simp only
          split
          · simp
          · split <;> simp
    unfold callAll
    simp only
    split
    · simp [hended, ih]
    · simp [hended]

theorem rejected_not_mem_advance (g : Graph σ ω) (run : Run) :
    .rejected name node port fault ∉ (g.advance run).2.1 := by
  have hcycle : .rejected name node port fault ∉ (g.cycle run).2.1 := by
    unfold cycle
    simp only
    split
    · simp [rejected_not_mem_callAll]
    · exact rejected_not_mem_callAll _ _
  unfold advance
  split
  · exact List.not_mem_nil
  · split
    · exact List.not_mem_nil
    · simp only
      split
      · exact hcycle
      · simp [hcycle]

/-- What a thread refuses is refused by bindings of its nodes. -/
theorem Postal.exists_fault (h : g.Postal taken) (hg : g.Consistent t) (hstaffed : g.Staffed)
    {s : SubgraphId} (hrun : g.run? s = some run)
    (hrejected : .rejected name node port fault ∈ (g.iterate run).2.1) :
    ∃ batch ∈ g.partition.load, ∃ d ∈ batch, d.binding.node = node ∧
      ∃ ports : List (Port PortRef ω), (∀ k, (shapes ports)[k]? = g.shapeOf ⟨node, k⟩) ∧
        (d.binding.apply ports d.value).2.2 = .error fault := by
  obtain ⟨rfl, runs, hruns, hmem⟩ := run?_eq_some hrun
  have hattempts : ∀ d ∈ g.partition.waiting run.subgraph.index,
      d.binding.node ∈ run.order ∧ (g.slot? d.binding.node).isSome := by
    intro d hd
    rw [← attempts_waiting hg hstaffed h.addressed hruns hmem] at hd
    exact of_decide_eq_true (List.mem_filter.1 hd).2
  unfold iterate at hrejected
  split at hrejected
  · cases hrejected
  · rcases List.mem_append.1 hrejected with hdrained | hadvanced
    · obtain ⟨d, hd, hnode, ports, hports, hfault⟩ :=
        exists_fault_of_deliverAll (g := { g with
          partition := (g.partition.receive run.subgraph).2 }) hattempts hdrained
      obtain ⟨batch, hbatch, hd⟩ := Partition.mem_waiting.1 hd
      exact ⟨batch, Partition.mem_load.2 ⟨_, hbatch⟩, d, hd, hnode, ports, hports, hfault⟩
    · exact absurd hadvanced (rejected_not_mem_advance _ _)

/-! ## All batches -/

def traffic (g : Graph σ ω) (operations : List (Operation σ ω)) : Traffic :=
  g.tallied Traffic.tally ⟨[], []⟩ operations

/-- A graph in which batches go where they belong. The ports of some nodes kept their kinds and
types. -/
structure KeepsBatches (g : Graph σ ω) (traffic : Traffic) (steady : NodeId → Prop) : Prop where
  conserved : traffic.Conserved g.partition
  /-- What waits for an entry is for nodes of the subgraph that the entry became part of. -/
  owned : ∀ i, ∀ batch ∈ (g.partition.entry i).pending, ∀ d ∈ batch,
    g.subgraphOf d.binding.node = some (g.partition.find ⟨i⟩)
  at_home : ∀ {s run}, g.run? s = some run → ∀ {name node port fault other},
    .rejected name node port fault ∈ (g.iterate run).2.1 → fault ≠ .foreignNode other
  /-- A value for a steady node is refused for what it is. -/
  refusals : ∀ {s run}, g.run? s = some run → ∀ {name node port fault}, steady node →
    .rejected name node port fault ∈ (g.iterate run).2.1 →
      (∃ expected found, fault = .typeMismatch expected found) ∨
        ∃ message, fault = .panicked message
  /-- A thread leaves the nodes of other subgraphs alone. -/
  confined : ∀ {s run}, g.run? s = some run → ∀ node, g.subgraphOf node ≠ some s →
    (g.iterate run).1.slot? node = g.slot? node

theorem Postal.keepsBatches (h : g.Postal taken) (hg : g.Consistent t) (hstaffed : g.Staffed)
    {traffic : Traffic} (hconserved : traffic.Conserved g.partition) {steady : NodeId → Prop}
    (hsteady : ∀ node, steady node → ∃ taken', g.Aims taken' node) :
    g.KeepsBatches traffic steady := by
  have hp := hg.represents.wellFormed
  constructor
  case conserved => exact hconserved
  case owned =>
    intro i batch hbatch d hd
    exact h.addressed i d (Partition.mem_waiting.2 ⟨batch, hbatch, hd⟩)
  case at_home =>
    rintro s run hrun name node port fault other hrejected rfl
    obtain ⟨-, -, d, -, -, ports, -, hfault⟩ := h.exists_fault hg hstaffed hrun hrejected
    exact Binding.apply_ne_foreignNode hfault
  case refusals =>
    intro s run hrun name node port fault hnode hrejected
    obtain ⟨taken', haims⟩ := hsteady node hnode
    obtain ⟨batch, hbatch, d, hd, rfl, ports, hports, hfault⟩ :=
      h.exists_fault hg hstaffed hrun hrejected
    refine Binding.fault_of_apply ?_ hfault
    rw [hports]
    exact haims.waiting batch hbatch d hd rfl
  case confined =>
    intro s run hrun node hnode
    obtain ⟨rfl, runs, hruns, hmem⟩ := run?_eq_some hrun
    by_cases halive : run.alive = true
    · refine (steps_iterate halive).slot?_eq fun horder ↦ hnode ?_
      exact (hstaffed.mem_order_iff hp hruns hmem).1 horder
    · rw [iterate, if_pos (by simpa using halive)]

/-- Whatever is done to a graph, each batch that was sent waits or was taken once, and threads
refuse values for steady nodes only for what the values are. -/
theorem batches_are_kept (options : Options) (operations : List (Operation σ ω))
    (htaken : (empty options).TakesHandles [] operations) :
    ((empty options).after operations).KeepsBatches ((empty options).traffic operations)
      fun node ↦ (empty options).KeepsPorts node operations := by
  have hempty : (empty options : Graph σ ω).Consistent [] := consistent_empty options
  have hstaffed : (empty options : Graph σ ω).Staffed := .of_duties_none rfl
  have hnone : Traffic.Conserved (empty options : Graph σ ω).partition ⟨[], []⟩ := rfl
  obtain ⟨taken, hpostal, hconserved⟩ := (postal_empty options).after Traffic.Conserved.apply
    hempty hstaffed htaken hnone
  refine hpostal.keepsBatches (consistent_after options operations)
    (staffed_after options operations) hconserved fun node hkeeps ↦ ?_
  exact (aims_empty options node).after (postal_empty options) hempty hstaffed htaken hkeeps

/-- Two pairs of stages, and names for the gains of the stages in front. -/
def gainPairs : List (Operation Demo.Node Empty) :=
  .replicate 4 (.add (Demo.Gain.ports (Numeric.Binary.zero Numeric.binary64 false)) .gain) ++
    [.connect (.connect ⟨0⟩ ⟨1⟩), .connect (.connect ⟨2⟩ ⟨3⟩),
      .bind ⟨⟨0⟩, Demo.Gain.gainPort⟩ "first" .double none,
      .bind ⟨⟨2⟩, Demo.Gain.gainPort⟩ "second" .double none]

/-- A handle of the time when the pairs were apart. -/
def gainHandle : Handle :=
  ((empty .standard).after gainPairs).handle

/-- The pairs are joined, and a gain of each is set by the old handle. -/
def gainBatches : List (Operation Demo.Node Empty) :=
  let level := Value.double (Numeric.Binary.zero Numeric.binary64 false)
  gainPairs ++ [.connect (.connect ⟨1⟩ ⟨2⟩),
    .postThrough gainHandle ((NameMap.empty.insert "second" level).insert "first" level),
    .start .willing, .iterate ⟨0⟩]

/-- The old handle sends two batches, one of them to the merged entry, and both are taken. -/
theorem gainBatches_kept : (empty .standard).TakesHandles [] gainBatches ∧
    ((empty .standard).traffic gainBatches).sent.length = 2 ∧
    ((empty .standard).traffic gainBatches).drained.length = 2 ∧
    ((empty .standard).after gainBatches).KeepsBatches
      ((empty .standard).traffic gainBatches)
      fun node ↦ (empty .standard).KeepsPorts node gainBatches := by
  have htaken : (empty .standard).TakesHandles [] gainBatches := by
    refine ⟨nofun, nofun, nofun, nofun, nofun, nofun, nofun, nofun, nofun, ?_, nofun, nofun,
      trivial⟩
    intro handle updates heq
    cases heq
    exact List.mem_cons_of_mem _ List.mem_cons_self
  exact ⟨htaken, by decide, by decide, batches_are_kept .standard gainBatches htaken⟩

end Graph

end SignalFlow
