import SignalFlow.Proofs.Graph.Operation
import SignalFlow.Proofs.Graph.Work

/-!
# Threads and subgraphs

While a graph runs, each of its subgraphs has one thread, which calls the nodes of the subgraph,
each once. Starting gives the threads out, and no operation on a running graph changes the
subgraphs.
-/

namespace SignalFlow

namespace Partition.SameTopology

variable {β : Type} {p q : Partition β}

theorem roots_eq (h : p.SameTopology q) : q.roots = p.roots := by
  have hlisted (i : Nat) : ((q.entry i).parent == i && !(q.entry i).nodes.isEmpty) =
      ((p.entry i).parent == i && !(p.entry i).nodes.isEmpty) := by
    rw [h.sameDivision.parent, h.sameDivision.nodes]
  simp only [roots, h.length, hlisted]

theorem edges_eq (h : p.SameTopology q) (hp : p.Forest) (s : SubgraphId) :
    q.edges s = p.edges s := by
  have hquiet := congrArg Entry.edges (h.entry (p.root s.index))
  rw [edges, survivor, hp.root_congr h.sameDivision.length_le h.sameDivision.parent]
  exact hquiet

theorem nodes_eq (h : p.SameTopology q) (hp : p.Forest) (s : SubgraphId) :
    q.nodes s = p.nodes s := by
  rw [nodes, survivor, hp.root_congr h.sameDivision.length_le h.sameDivision.parent,
    h.sameDivision.nodes]
  rfl

end Partition.SameTopology

namespace Graph

variable {σ ω : Type} {g g' : Graph σ ω} {t : Topology} {c : Connection}

/-- Every subgraph has one thread if the graph runs, and the thread calls its nodes in an order in
which all edges point forward. -/
structure Staffed (g : Graph σ ω) : Prop where
  subgraphs : ∀ {given}, g.duties = some given → given.map Prod.fst = g.subgraphs
  nodes : ∀ {given}, g.duties = some given → ∀ d ∈ given, d.2.Perm (g.partition.nodes d.1)
  forward : ∀ {given}, g.duties = some given →
    ∀ d ∈ given, Schedule.Forward (g.partition.edges d.1) d.2

namespace Staffed

theorem of_duties_none (h : g.duties = none) : g.Staffed where
  subgraphs hgiven := by
    rw [h] at hgiven
    cases hgiven
  nodes hgiven := by
    rw [h] at hgiven
    cases hgiven
  forward hgiven := by
    rw [h] at hgiven
    cases hgiven

theorem congr (h : g.Staffed) (hp : g.partition.Forest)
    (hpartition : g.partition.SameTopology g'.partition) (hduties : g'.duties = g.duties) :
    g'.Staffed where
  subgraphs hgiven := by
    rw [hduties] at hgiven
    rw [h.subgraphs hgiven]
    exact hpartition.roots_eq.symm
  nodes hgiven d hd := by
    rw [hduties] at hgiven
    rw [hpartition.nodes_eq hp]
    exact h.nodes hgiven d hd
  forward hgiven d hd := by
    rw [hduties] at hgiven
    rw [hpartition.edges_eq hp]
    exact h.forward hgiven d hd

/-- The threads are those of the subgraphs, in their order. -/
theorem map_subgraph (h : g.Staffed) {runs : List Run} (hruns : g.runs = some runs) :
    runs.map Run.subgraph = g.subgraphs := by
  have hgiven : g.duties = some (runs.map duty) := by rw [duties, hruns, Option.map_some]
  have hsubgraphs := h.subgraphs hgiven
  rwa [List.map_map] at hsubgraphs

theorem perm_order (h : g.Staffed) {runs : List Run} (hruns : g.runs = some runs) {run : Run}
    (hrun : run ∈ runs) : run.order.Perm (g.partition.nodes run.subgraph) := by
  have hgiven : g.duties = some (runs.map duty) := by rw [duties, hruns, Option.map_some]
  exact h.nodes hgiven _ (List.mem_map_of_mem hrun)

theorem forward_order (h : g.Staffed) {runs : List Run} (hruns : g.runs = some runs) {run : Run}
    (hrun : run ∈ runs) : Schedule.Forward (g.partition.edges run.subgraph) run.order := by
  have hgiven : g.duties = some (runs.map duty) := by rw [duties, hruns, Option.map_some]
  exact h.forward hgiven _ (List.mem_map_of_mem hrun)

/-- The subgraphs that have threads are not merged into others. -/
theorem survives (h : g.Staffed) (hp : g.partition.WellFormed) {runs : List Run}
    (hruns : g.runs = some runs) {run : Run} (hrun : run ∈ runs) :
    g.partition.Survives run.subgraph.index := by
  have hroot : run.subgraph ∈ g.subgraphs := by
    rw [← h.map_subgraph hruns]
    exact List.mem_map_of_mem hrun
  obtain ⟨other, hother⟩ := hp.mem_roots.1 hroot
  exact hp.of_survives hother

theorem mem_order_iff (h : g.Staffed) (hp : g.partition.WellFormed) {runs : List Run}
    (hruns : g.runs = some runs) {run : Run} (hrun : run ∈ runs) {node : NodeId} :
    node ∈ run.order ↔ g.subgraphOf node = some run.subgraph := by
  rw [(h.perm_order hruns hrun).mem_iff, subgraphOf, hp.of_eq_some_iff, ← hp.mem_nodes]
  change node ∈ (g.partition.entry (g.partition.root run.subgraph.index)).nodes ↔ _
  rw [Partition.root_of_survives (h.survives hp hruns hrun)]

/-- While a graph runs, the subgraph of every node has its thread. -/
theorem exists_run? (h : g.Staffed) (hp : g.partition.WellFormed) (hrunning : g.isRunning = true)
    {node : NodeId} {s : SubgraphId} (hnode : g.subgraphOf node = some s) :
    ∃ run, g.run? s = some run := by
  obtain ⟨runs, hruns⟩ := Option.isSome_iff_exists.1 hrunning
  have hroot : s ∈ runs.map Run.subgraph := by
    rw [h.map_subgraph hruns]
    exact hp.mem_roots.2 ⟨node, hnode⟩
  obtain ⟨run, hrun, hs⟩ := List.mem_map.1 hroot
  rw [run?, hruns, ← Option.isSome_iff_exists, List.find?_isSome]
  exact ⟨run, hrun, beq_iff_eq.2 hs⟩

theorem eq_of_subgraph_eq (h : g.Staffed) {runs : List Run} (hruns : g.runs = some runs)
    {run run' : Run} (hrun : run ∈ runs) (hrun' : run' ∈ runs)
    (heq : run.subgraph = run'.subgraph) : run = run' := by
  have hnodup : (runs.map Run.subgraph).Nodup := by
    rw [h.map_subgraph hruns]
    exact Partition.WellFormed.nodup_roots g.partition
  exact List.inj_on_of_nodup_map hnodup hrun hrun' heq

end Staffed

theorem order_of_plan {s : SubgraphId} {run : Run} (h : g.plan s = .ok run) :
    run.subgraph = s ∧
      Schedule.order (g.partition.nodes s) (g.partition.edges s) = .ok run.order := by
  unfold plan at h
  split at h
  · cases h
  · next order horder =>
    split at h
    · cases h
    · cases h
      exact ⟨rfl, horder⟩

theorem Staffed.of_plans (hp : g.partition.WellFormed) {runs : List Run}
    (hruns : g.subgraphs.mapM g.plan = .ok runs)
    (hpartition : g'.partition = g.partition) (hduties : g'.duties = some (runs.map duty)) :
    g'.Staffed := by
  have hplans := mapM_eq_ok_iff.1 hruns
  have hsubgraphs : (runs.map duty).map Prod.fst = g.subgraphs := by
    rw [List.map_map, ← List.forall₂_eq_eq_eq, List.forall₂_map_left_iff]
    refine hplans.flip.imp fun run s hplan ↦ ?_
    exact (order_of_plan hplan).1
  have horders (d : SubgraphId × List NodeId) (hd : d ∈ runs.map duty) :
      Schedule.order (g'.partition.nodes d.1) (g'.partition.edges d.1) = .ok d.2 := by
    obtain ⟨run, hrun, rfl⟩ := List.mem_map.1 hd
    obtain ⟨⟨i, hi⟩, rfl⟩ := List.mem_iff_get.1 hrun
    obtain ⟨hsubgraph, horder⟩ := order_of_plan (hplans.get (hplans.length_eq ▸ hi) hi)
    rw [hpartition, duty, hsubgraph]
    exact horder
  have hnodup (s : SubgraphId) : (g'.partition.nodes s).Nodup := by
    rw [hpartition]
    exact hp.nodup _
  constructor
  case subgraphs =>
    intro given hgiven
    rw [hduties] at hgiven
    cases hgiven
    rw [hsubgraphs, Graph.subgraphs, Graph.subgraphs, hpartition]
  case nodes =>
    intro given hgiven d hd
    rw [hduties] at hgiven
    cases hgiven
    exact Schedule.perm_of_order (hnodup d.1) (horders d hd)
  case forward =>
    intro given hgiven d hd
    rw [hduties] at hgiven
    cases hgiven
    exact Schedule.forward_of_order (hnodup d.1) (horders d hd)

section Operations

variable [Behaviour σ ω]

theorem Staffed.start (h : g.Staffed) (hp : g.partition.WellFormed) (spawner : Spawner) :
    (g.start spawner).1.Staffed := by
  have hforwarded (hstopped : g.runs = none) : g.forwarded.duties = none := by
    rw [duties, forwarded, hstopped, Option.map_none]
  have hstarts := g.starts spawner
  generalize g.start spawner = result at hstarts ⊢
  cases hstarts with
  | running => exact h
  | unplanned hstopped => exact of_duties_none (hforwarded hstopped)
  | unnamed hplans =>
    exact of_duties_none
      ((Works.setAvailable g.forwarded _ false).duties.trans (hforwarded hplans.stopped))
  | stuck | refused => exact of_duties_none rfl
  | @started runs hplans =>
    have hforward := Partition.SameTopology.forwardAll g.partition
    have hworks := works_initialised g.forwarded runs
    refine of_plans (hp.congr hforward.sameDivision) hplans.plans ?_ hworks.duties
    exact hworks.partition.trans (Works.setAvailable _ _ false).partition

theorem duties_iterate (g : Graph σ ω) (run : Run) : (g.iterate run).1.duties = g.duties := by
  unfold iterate
  split
  · rfl
  · exact (Works.advance _ run).duties.trans (Works.deliverAll run _ _).duties

theorem options_iterate (g : Graph σ ω) (run : Run) : (g.iterate run).1.options = g.options := by
  unfold iterate
  split
  · rfl
  · exact (Works.advance _ run).options.trans (Works.deliverAll run _ _).options

/-- A graph that was connected is stopped, and keeps its bindings and options. -/
theorem Attempt.kept_of_ok {attempt : Attempt} (hok : attempt.result g = .ok (c, g')) :
    g.runs = none ∧ g'.runs = none ∧ g'.bindings = g.bindings ∧ g'.options = g.options := by
  have hports {g g' : Graph σ ω} {source target : PortRef}
      (hok : g.connectPorts source target = .ok g') :
      g.runs = none ∧ g'.runs = none ∧ g'.bindings = g.bindings ∧ g'.options = g.options := by
    obtain ⟨hstopped, i, -, -, rfl⟩ := connectPorts_eq_ok_iff.1 hok
    have hnone : g.runs = none := by simpa [isRunning] using hstopped
    exact ⟨hnone, hnone, rfl, rfl⟩
  rcases attempt.result_cases hok with
    ⟨source, target, -, hok⟩ | ⟨source, target, capacity, queue, -, hok⟩
  · exact hports hok
  · obtain ⟨-, -, -, -, type, g₁, g₂, hwriter, hreader, producer, consumer, -, -, rfl⟩ :=
      connectQueuedPorts_eq_ok hok
    obtain ⟨hstopped, -, hbindings, hoptions⟩ := hports hwriter
    obtain ⟨-, hstopped', hbindings', hoptions'⟩ := hports hreader
    exact ⟨hstopped, hstopped', hbindings'.trans hbindings, hoptions'.trans hoptions⟩

theorem Staffed.of_result {attempt : Attempt} (hok : attempt.result g = .ok (c, g')) :
    g'.Staffed := by
  refine of_duties_none ?_
  rw [duties, (attempt.kept_of_ok hok).2.1, Option.map_none]

/-- Bindings and postings give no duties, and only connections, starts and stops change what the
duties are for. -/
theorem Staffed.apply (h : g.Staffed) (hg : g.Consistent t) (operation : Operation σ ω) :
    (operation.apply g).Staffed := by
  have hp := hg.represents.wellFormed
  rcases operation.apply_cases g with ⟨-, hsame⟩ | ⟨attempt, c, -, hok⟩
  · have hkept (hduties : (operation.apply g).duties = g.duties) :
        (operation.apply g).Staffed :=
      h.congr hp.toForest hsame.partition hduties
    cases operation with
    | start spawner => exact h.start hp spawner
    | stop => exact of_duties_none rfl
    | connect attempt =>
      rcases Operation.connect_cases g attempt with ⟨-, hsame⟩ | ⟨c, -, hok⟩
      · exact hsame.symm ▸ h
      · exact of_result hok
    | bind ref name storage validator =>
      rcases Operation.bind_cases g ref name storage validator with hsame | ⟨-, hbound⟩
      · exact hsame.symm ▸ h
      · exact hkept (by rw [hbound]; rfl)
    | unbindAll =>
      rcases Operation.unbindAll_cases g with hsame | ⟨-, hunbound⟩
      · exact hsame.symm ▸ h
      · exact hkept (by rw [hunbound]; rfl)
    | iterate subgraph =>
      refine hkept ?_
      simp only [Operation.apply]
      cases g.run? subgraph with
      | none => rfl
      | some run => exact duties_iterate g run
    | call phase node =>
      refine hkept ?_
      simp only [Operation.apply]
      split
      · exact (Works.call g phase none node).duties
      · rfl
    | access node ports state =>
      refine hkept ?_
      simp only [Operation.apply]
      split <;> rfl
    | add _ _ | addQueue _ _ | changeQueue _ _ | post _ | postThrough _ _ => exact hkept rfl
  · exact of_result hok

theorem Staffed.after (h : g.Staffed) (hg : g.Consistent t) (operations : List (Operation σ ω)) :
    (g.after operations).Staffed :=
  hg.preserved (P := fun g _ ↦ g.Staffed)
    (fun operation _ _ _ hg hstaffed ↦ hstaffed.apply hg operation) h

/-- The threads of a graph are those of its subgraphs. -/
theorem staffed_after (options : Options) (operations : List (Operation σ ω)) :
    ((empty options).after operations).Staffed :=
  Staffed.after (.of_duties_none rfl) (consistent_empty options) operations

end Operations

end Graph

end SignalFlow
