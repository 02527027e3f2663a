import SignalFlow.Proofs.Graph.Cells
import SignalFlow.Proofs.Graph.Homes
import SignalFlow.Proofs.Node.Programs
import SignalFlow.Proofs.Schedule.Remaining

/-!
# Starting again and again

A graph of which no thread dies starts if there is a subgraph, no subgraph has a cycle and the
system grants all threads, and a start that fails leaves everything where it was. A start gives each
connected node to one thread. A stop brings all of them home, each to its own place, and leaves
subgraphs and queues as they are, so that the next start goes like the first one. If the system
refuses a thread, those that are there already are stopped in the same way.
-/

namespace SignalFlow.Graph

variable {σ ω : Type} [Behaviour σ ω] {g g' : Graph σ ω} {t : Topology} {id : NodeId}

theorem atHome_push (g : Graph σ ω) (ports : List (PortSpec ω)) (role : Role σ) (id : NodeId) :
    (g.push ports role).2.atHome id =
      if id.index = g.nodeCount then some true else g.atHome id := by
  unfold atHome slot? push nodeCount
  rw [List.getElem?_append]
  by_cases hlt : id.index < g.slots.length
  · rw [if_pos hlt, if_neg hlt.ne]
  · rw [if_neg hlt, List.getElem?_eq_none (Nat.not_lt.1 hlt), List.getElem?_singleton]
    by_cases heq : id.index = g.slots.length
    · simp [heq]
    · have hsub : id.index - g.slots.length ≠ 0 := by omega
      simp [heq, hsub]

namespace AllHome

theorem push (h : g.AllHome) (ports : List (PortSpec ω)) (role : Role σ) :
    (g.push ports role).2.AllHome := by
  intro id here hid
  rw [atHome_push] at hid
  split at hid
  · exact (Option.some.inj hid).symm
  · exact h id here hid

omit [Behaviour σ ω] in
theorem connectPorts (h : g.AllHome) {source target : PortRef}
    (hok : g.connectPorts source target = .ok g') : g'.AllHome := by
  obtain ⟨-, i, -, -, rfl⟩ := connectPorts_eq_ok_iff.1 hok
  have hwired : (g.wire target i).AllHome :=
    h.congr (atHome_modifySlot g target.node fun _ ↦ rfl)
  exact hwired

theorem result (h : g.AllHome) {attempt : Attempt} {c : Connection}
    (hok : attempt.result g = .ok (c, g')) : g'.AllHome := by
  rcases attempt.result_cases hok with
    ⟨source, target, rfl, hports⟩ | ⟨source, target, capacity, queue, rfl, hports⟩
  · exact h.connectPorts hports
  · obtain ⟨-, -, -, -, type, g₁, g₂, hwriter, hreader, producer, consumer, -, -, rfl⟩ :=
      connectQueuedPorts_eq_ok hports
    have hqueue : (g.addQueue type capacity).2.AllHome := h
    have hadapters : (g.withAdapters type capacity).AllHome := (hqueue.push _ _).push _ _
    exact ((hadapters.connectPorts hwriter).connectPorts hreader).congr rfl

end AllHome

/-- What comes of a start of a stopped graph that loses no thread. -/
inductive SafeStart (g : Graph σ ω) (spawner : Spawner) :
    Graph σ ω × Except (StartFault ω) (RunReports ω) → Prop
  | unplanned (hnot : ∀ runs, ¬ g.Plans runs) (e : GraphError) :
      SafeStart g spawner (g.forwarded, .error (.failed e [] []))
  | refused {runs : List Run} {reason : String} (hplans : g.Plans runs)
      (hrefused : runs.findSome? (fun run ↦ spawner.refusal run.subgraph) = some reason)
      (hdead : (g.forwarded.initialised (granted spawner runs)).dead = [])
      (hlost : (g.forwarded.initialised (granted spawner runs)).stop.2.2 = []) (reports) :
      SafeStart g spawner ((g.forwarded.initialised (granted spawner runs)).stop.1,
        .error (.failed (.spawn reason) reports []))
  | started {runs : List Run} (hplans : g.Plans runs)
      (hgranted : ∀ run ∈ runs, spawner.refusal run.subgraph = none)
      (hdead : (g.forwarded.initialised runs).dead = []) (reports) :
      SafeStart g spawner (g.forwarded.initialised runs, .ok reports)

/-- Unless the names of threads have a zero in them a start that loses no thread returns. -/
theorem safeStart {spawner : Spawner} (hstopped : g.runs = none)
    (hname : '\x00' ∉ g.options.threadName.toList)
    (hlost : Operation.lost g (.start spawner) = []) : SafeStart g spawner (g.start spawner) := by
  unfold Operation.lost at hlost
  obtain ⟨-, hlost⟩ := List.append_eq_nil_iff.1 hlost
  have hstarts := g.starts spawner
  generalize g.start spawner = result at hstarts hlost ⊢
  cases hstarts with
  | running hrunning => simp [isRunning, hstopped] at hrunning
  | unplanned _ hnot e => exact .unplanned hnot e
  | unnamed _ hzero => exact absurd hzero hname
  | stuck _ _ hdead => exact absurd hlost hdead
  | @refused runs hplans _ hdead reason hrefused reports =>
    change (g.forwarded.initialised (granted spawner runs)).stop.2.2 = [] at hlost
    rw [hlost]
    exact .refused hplans hrefused hdead hlost reports
  | started hplans _ hgranted hdead reports => exact .started hplans hgranted hdead reports

/-- Nothing that is done to a graph changes its options. -/
theorem Operation.options_apply (operation : Operation σ ω) (g : Graph σ ω) :
    (operation.apply g).options = g.options := by
  cases operation with
  | connect attempt =>
    rcases Operation.connect_cases g attempt with ⟨-, hsame⟩ | ⟨c, -, hok⟩
    · rw [hsame]
    · exact (attempt.kept_of_ok hok).2.2.2
  | bind ref name storage validator =>
    rcases Operation.bind_cases g ref name storage validator with hsame | ⟨-, hbound⟩
    · rw [hsame]
    · rw [hbound]
      rfl
  | unbindAll =>
    rcases Operation.unbindAll_cases g with hsame | ⟨-, hunbound⟩
    · rw [hsame]
    · rw [hunbound]
  | call phase node =>
    simp only [Operation.apply]
    split
    · exact (Works.call g phase none node).options
    · rfl
  | access node ports state =>
    simp only [Operation.apply]
    split <;> rfl
  | start spawner =>
    by_cases hrunning : g.isRunning = true
    · rw [Operation.apply, start_of_running hrunning]
    · have hstopped : g.runs = none := by simpa [isRunning] using hrunning
      exact (works_start hstopped spawner).options
  | iterate subgraph =>
    simp only [Operation.apply]
    cases g.run? subgraph with
    | none => rfl
    | some run => exact options_iterate g run
  | stop => exact g.works_stop.options
  | add _ _ | addQueue _ _ | changeQueue _ _ | post _ | postThrough _ _ => rfl

theorem options_after (g : Graph σ ω) (operations : List (Operation σ ω)) :
    (g.after operations).options = g.options := by
  induction operations generalizing g with
  | nil => rfl
  | cons operation rest ih => exact (ih _).trans (operation.options_apply g)

namespace Whole

omit [Behaviour σ ω] in
theorem manned (h : g.Whole) (hstopped : g.runs = none) (runs : List Run) {id : NodeId}
    {here : Bool} (hid : (g.manned runs).atHome id = some here) :
    here = true ↔ id ∉ runs.flatMap Run.order := by
  change (g.setAvailable (runs.flatMap Run.order) false).atHome id = some here at hid
  rw [atHome_setAvailable] at hid
  split at hid
  · next hmem =>
    obtain ⟨_, -, rfl⟩ := Option.map_eq_some_iff.1 hid
    simp [hmem]
  · next hmem => simp [hmem, h.allHome hstopped id here hid]

/-- A stopped graph some runs of which got threads, all of which live. -/
theorem initialised (h : g.Whole) (hstopped : g.runs = none) {runs : List Run}
    (hdead : (g.forwarded.initialised runs).dead = []) : (g.forwarded.initialised runs).Whole := by
  refine ⟨dead_eq_nil_iff.1 hdead, fun {id here} hid ↦ ?_⟩
  have hforwarded : g.forwarded.Whole := h.congr rfl rfl
  have hsteps : Steps (fun _ ↦ True) (g.forwarded.manned runs) (g.forwarded.initialised runs) :=
    g.forwarded.steps_initialised fun _ _ _ _ ↦ trivial
  rw [hsteps.atHome_eq] at hid
  rw [away_congr (works_initialised g.forwarded runs).duties]
  exact hforwarded.manned hstopped runs hid

theorem stop (h : g.Whole) (hlost : g.stop.2.2 = []) : g.stop.1.AllHome := by
  intro id here hid
  have hhome : (g.destroyed.setAvailable g.away true).atHome id = some here := by
    rw [stop_of_lost_eq_nil hlost] at hid
    exact hid
  have hsteps : Steps (fun _ ↦ True) g g.destroyed := g.steps_destroyed fun _ _ _ _ ↦ trivial
  rw [atHome_setAvailable, hsteps.atHome_eq] at hhome
  split at hhome
  · obtain ⟨_, -, rfl⟩ := Option.map_eq_some_iff.1 hhome
    rfl
  · next hmem => exact (h.home hhome).2 hmem

theorem start (h : g.Whole) (hname : '\x00' ∉ g.options.threadName.toList) {spawner : Spawner}
    (hlost : Operation.lost g (.start spawner) = []) : (g.start spawner).1.Whole := by
  by_cases hrunning : g.isRunning = true
  · rw [start_of_running hrunning]
    exact h
  · have hstopped : g.runs = none := by simpa [isRunning] using hrunning
    have hsafe := safeStart hstopped hname hlost
    generalize g.start spawner = result at hsafe ⊢
    cases hsafe with
    | unplanned => exact h.congr rfl rfl
    | refused _ _ hdead hlost => exact of_allHome ((h.initialised hstopped hdead).stop hlost) rfl
    | started _ _ hdead => exact h.initialised hstopped hdead

theorem apply (h : g.Whole) (hg : g.Consistent t) (hstaffed : g.Staffed)
    (hname : '\x00' ∉ g.options.threadName.toList) {operation : Operation σ ω}
    (hlost : operation.lost g = []) : (operation.apply g).Whole := by
  have halive := alive_of_lost_eq_nil hlost
  cases operation with
  | start => exact h.start hname hlost
  | stop => exact of_allHome (h.stop hlost) rfl
  | add ports state =>
    refine ⟨halive, fun {id here} hid ↦ ?_⟩
    change (g.push ports (.custom state)).2.atHome id = some here at hid
    change here = true ↔ id ∉ g.away
    rw [atHome_push] at hid
    split at hid
    · next hnew =>
      obtain rfl := Option.some.inj hid
      have habsent : id ∉ g.away := fun hmem ↦ (lt_of_mem_away hg hstaffed hmem).ne hnew
      simp [habsent]
    · exact h.home hid
  | connect attempt =>
    rcases Operation.connect_cases g attempt with ⟨-, hsame⟩ | ⟨c, -, hok⟩
    · rw [hsame]
      exact h
    · obtain ⟨hstopped, hstopped', -⟩ := attempt.kept_of_ok hok
      exact of_allHome ((h.allHome hstopped).result hok) hstopped'
  | bind ref name storage validator =>
    rcases Operation.bind_cases g ref name storage validator with hsame | ⟨-, hbound⟩
    · rw [hsame]
      exact h
    · rw [hbound]
      exact h.congr rfl rfl
  | unbindAll =>
    rcases Operation.unbindAll_cases g with hsame | ⟨-, hunbound⟩
    · rw [hsame]
      exact h
    · rw [hunbound]
      exact h.congr rfl rfl
  | call phase node =>
    simp only [Operation.apply]
    split
    · have hstep : Step (fun _ ↦ True) g (g.call phase none node).1 := .call g phase none trivial
      refine h.congr ?_ hstep.atHome_eq
      unfold Graph.call
      split <;> rfl
    · exact h
  | access node ports state =>
    simp only [Operation.apply]
    split
    · exact h.congr rfl (atHome_modifySlot g node fun _ ↦ rfl)
    · exact h
  | iterate subgraph =>
    refine ⟨halive, fun {id here} hid ↦ ?_⟩
    simp only [Operation.apply] at hid ⊢
    cases hrun : g.run? subgraph with
    | none =>
      rw [hrun] at hid
      exact h.home hid
    | some run =>
      rw [hrun, Option.elim_some, atHome_iterate] at hid
      rw [Option.elim_some, away_congr (duties_iterate g run)]
      exact h.home hid
  | addQueue _ _ | changeQueue _ _ | post _ | postThrough _ _ => exact h.congr rfl rfl

theorem after (h : g.Whole) (hg : g.Consistent t) (hstaffed : g.Staffed)
    (hname : '\x00' ∉ g.options.threadName.toList) {operations : List (Operation σ ω)}
    (hkeeps : g.KeepsThreads operations) : (g.after operations).Whole := by
  induction operations generalizing g t with
  | nil => exact h
  | cons operation rest ih =>
    refine ih (h.apply hg hstaffed hname hkeeps.1) (hg.apply operation)
      (hstaffed.apply hg operation) ?_ hkeeps.2
    rwa [operation.options_apply]

end Whole

section Plans

omit [Behaviour σ ω]

/-- The edges of a subgraph lead between its nodes. -/
theorem Consistent.inner_edges (hg : g.Consistent t) (hrecords : g.partition.Records t.edges)
    {s : SubgraphId} (hs : s ∈ g.subgraphs) :
    Schedule.inner (g.partition.nodes s) (g.partition.edges s) = g.partition.edges s := by
  have hp := hg.represents.wellFormed
  obtain ⟨node, hnode⟩ := hp.mem_roots.1 hs
  have hsurvives := hp.of_survives hnode
  have hmem {node : NodeId} (hof : g.partition.of node = some s) :
      node ∈ g.partition.nodes s := by
    rw [Partition.nodes, Partition.survivor, Partition.root_of_survives hsurvives]
    exact hp.mem_nodes.2 (hp.of_eq_some_iff.1 hof)
  refine Schedule.inner_eq_self fun e he ↦ ?_
  obtain ⟨-, hsource, htarget⟩ := (hg.represents.mem_edges_iff hrecords hsurvives).1 he
  exact ⟨hmem hsource, hmem htarget⟩

/-- A subgraph whose nodes are at home can be planned if it has no cycle. -/
theorem Consistent.exists_plan_iff (hg : g.Consistent t) (hrecords : g.partition.Records t.edges)
    (hhome : g.AllHome) {s : SubgraphId} (hs : s ∈ g.subgraphs) :
    (∃ run, g.plan s = .ok run) ↔ Schedule.Acyclic (g.partition.edges s) := by
  have hp := hg.represents.wellFormed
  obtain ⟨node, hnode⟩ := hp.mem_roots.1 hs
  have hroot := Partition.root_of_survives (hp.of_survives hnode)
  have hnodup : (g.partition.nodes s).Nodup := hp.nodup _
  rw [← hg.inner_edges hrecords hs, ← Schedule.exists_order_iff hnodup]
  constructor
  · rintro ⟨run, hrun⟩
    exact ⟨run.order, (order_of_plan hrun).2⟩
  · rintro ⟨order, horder⟩
    have hnone : order.find? (fun node ↦ !(g.slot? node).any (·.available)) = none := by
      refine List.find?_eq_none.2 fun node hmem ↦ ?_
      have hmem : node ∈ g.partition.nodes s :=
        (Schedule.perm_of_order hnodup horder).mem_iff.1 hmem
      rw [Partition.nodes, Partition.survivor, hroot] at hmem
      have hlt := hg.index_lt (hp.of_eq_some_iff.2 (hp.mem_nodes.1 hmem))
      have hslot : g.slot? node = some g.slots[node.index] := List.getElem?_eq_getElem hlt
      have havailable := hhome node _ (by rw [atHome, hslot, Option.map_some])
      simp [hslot, havailable]
    exact ⟨⟨s, order, true⟩, by unfold plan; rw [horder]; simp [hnone]⟩

/-- A stopped graph with all nodes at home can be planned if there is a subgraph and none has a
cycle. -/
theorem Consistent.exists_plans_iff (hg : g.Consistent t) (hrecords : g.partition.Records t.edges)
    (hstopped : g.runs = none) (hhome : g.AllHome) : (∃ runs, g.Plans runs) ↔
      g.subgraphs ≠ [] ∧ ∀ s ∈ g.subgraphs, Schedule.Acyclic (g.partition.edges s) := by
  have hp := hg.represents.wellFormed
  have hforward := Partition.SameTopology.forwardAll g.partition
  have hsame : g.SameTopology g.forwarded := .congr (.refl g) rfl rfl hforward
  have hsubgraphs : g.forwarded.subgraphs = g.subgraphs := hforward.roots_eq
  have hedges (s : SubgraphId) : g.forwarded.partition.edges s = g.partition.edges s :=
    hforward.edges_eq hp.toForest s
  have hplan {s : SubgraphId} (hs : s ∈ g.subgraphs) :
      (∃ run, g.forwarded.plan s = .ok run) ↔ Schedule.Acyclic (g.partition.edges s) := by
    rw [← hedges]
    exact (hg.sameTopology hsame).exists_plan_iff (hrecords.sameTopology hforward)
      (hhome.congr rfl) (hsubgraphs ▸ hs)
  rw [← hsubgraphs] at hplan ⊢
  constructor
  · rintro ⟨runs, h⟩
    have hall := exists_mapM_eq_ok_iff.1 ⟨runs, h.plans⟩
    exact ⟨h.subgraphs, fun s hs ↦ (hplan hs).1 (hall s hs)⟩
  · rintro ⟨hne, hacyclic⟩
    obtain ⟨runs, hruns⟩ := exists_mapM_eq_ok_iff.2 fun s hs ↦ (hplan hs).2 (hacyclic s hs)
    exact ⟨runs, hstopped, hne, hruns⟩

end Plans

section Untouched

variable {queue : QueueId} {phase : Phase}

/-- A call leaves a queue alone that the node may not use. -/
theorem queue?_call_of_within (huse : ∀ (role : Role σ) thread,
      (role.perform phase thread).Within ⟨fun _ ↦ True, (· ≠ queue)⟩ fun _ ↦ True)
    (g : Graph σ ω) (thread : Option String) (id : NodeId) :
    (g.call phase thread id).1.queue? queue = g.queue? queue := by
  cases hslot : g.slot? id with
  | none => rw [call_eq_self hslot]
  | some slot =>
    rw [call_eq hslot]
    exact (huse slot.node.role thread).queues_run (fun h ↦ h rfl) ⟨slot.node.ports, g.queues⟩

theorem queue?_callAll_of_within (huse : ∀ (role : Role σ) thread,
      (role.perform phase thread).Within ⟨fun _ ↦ True, (· ≠ queue)⟩ fun _ ↦ True)
    (thread : String) (ids : List NodeId) (g : Graph σ ω) :
    (callAll phase thread ids g).1.queue? queue = g.queue? queue := by
  induction ids generalizing g with
  | nil => rfl
  | cons id ids ih =>
    have hcall := queue?_call_of_within huse g (some thread) id
    unfold callAll
    simp only
    split
    · exact (ih _).trans hcall
    · exact hcall

/-- What nodes do when they are destroyed is all that a stop does to a queue. -/
theorem queue?_destroyed (huse : ∀ (state : σ) thread,
      (Behaviour.perform .destroy thread state).Within ⟨fun _ ↦ True, (· ≠ queue)⟩ fun _ ↦ True)
    (g : Graph σ ω) : g.destroyed.queue? queue = g.queue? queue := by
  have hrole (role : Role σ) (thread : Option String) :
      (role.perform .destroy thread).Within ⟨fun _ ↦ True, (· ≠ queue)⟩ fun _ ↦ True := by
    cases role with
    | custom state => exact (huse state thread).andThen fun _ _ ↦ trivial
    | writer _ | reader _ => trivial
  have hrun (g : Graph σ ω) (run : Run) :
      (if run.alive then callRun .destroy g run else (g, [])).1.queue? queue =
        g.queue? queue := by
    split
    · have hall := queue?_callAll_of_within hrole (g.threadName run.subgraph) run.order g
      unfold callRun
      simp only
      split
      · exact hall
      · exact hall
    · rfl
  unfold destroyed
  generalize g.runs.getD [] = runs
  induction runs generalizing g with
  | nil => rfl
  | cons run runs ih => exact (ih _).trans (hrun g run)

end Untouched

/-! ## Starts and stops -/

/-- A graph behind a start that gave threads to some subgraphs. -/
structure Started (g : Graph σ ω) (given : List SubgraphId) (g' : Graph σ ω) : Prop where
  /-- There is one thread for each of these subgraphs. -/
  threads : ∃ runs, g'.runs = some runs ∧ runs.map Run.subgraph = given
  /-- Every node of such a subgraph is away with one thread, once. -/
  once : ∀ {node s}, s ∈ given → g.subgraphOf node = some s → g'.away.count node = 1 ∧
    ∃ run ∈ g'.runs.getD [], run.subgraph = s ∧ node ∈ run.order
  /-- All others stay at home. -/
  others : ∀ {node}, (∀ s ∈ given, g.subgraphOf node ≠ some s) →
    node ∉ g'.away ∧ g'.atHome node = g.atHome node
  /-- The places are as they are when the threads have taken their nodes out. -/
  taken : takeNodes g'.away g.homes = (g.owned g'.away, g'.homes)

/-- A graph behind a stop that lost no thread. -/
structure Stopped (g g' : Graph σ ω) : Prop where
  runs : g'.runs = none
  /-- The threads have put the nodes back as they have destroyed them. -/
  returned : g'.homes = putNodes g.homes (g.destroyed.owned g.away)
  /-- No place is empty. -/
  home : ∀ node ∈ g'.homes, node.isSome
  partition : g'.partition = g.partition
  bindings : g'.bindings = g.bindings
  /-- There are the same queues, with what they held but for what nodes did to them when they
  were destroyed. -/
  kinds : kinds g'.queues = kinds g.queues
  queues : ∀ {queue}, (∀ (state : σ) thread,
    (Behaviour.perform .destroy thread state).Within ⟨fun _ ↦ True, (· ≠ queue)⟩ fun _ ↦ True) →
      g'.queue? queue = g.queue? queue

/-- A graph behind a start that failed. -/
structure Failed (g g' : Graph σ ω) : Prop where
  runs : g'.runs = g.runs
  /-- Every node is where it was, and if the graph is stopped no place is empty. -/
  atHome : g'.atHome = g.atHome
  home : g.runs = none → ∀ node ∈ g'.homes, node.isSome
  /-- Batches may have moved, but subgraphs, their nodes and edges are the same. -/
  partition : g.partition.SameTopology g'.partition
  wiring : g'.sourceOf = g.sourceOf
  bindings : g'.bindings = g.bindings
  kinds : SignalFlow.kinds g'.queues = SignalFlow.kinds g.queues

/-- How a graph starts and stops whose threads live. -/
structure Restarts (g : Graph σ ω) : Prop where
  /-- A stopped graph starts if there is a subgraph, no subgraph has a cycle and the system grants
  all threads. -/
  start_ok_iff : g.runs = none → ∀ spawner, Operation.lost g (.start spawner) = [] →
    ((∃ reports, (g.start spawner).2 = .ok reports) ↔ g.subgraphs ≠ [] ∧
      (∀ s ∈ g.subgraphs, Schedule.Acyclic (g.partition.edges s)) ∧
        ∀ s ∈ g.subgraphs, spawner.refusal s = none)
  /-- A start that does not succeed fails, and leaves everything where it was. -/
  failed : ∀ spawner, Operation.lost g (.start spawner) = [] → ∀ fault,
    (g.start spawner).2 = .error fault →
      (∃ error reports, fault = .failed error reports []) ∧ g.Failed (g.start spawner).1
  /-- Unless a thread is refused no node is called, and only batches move. -/
  untouched : ∀ spawner, Operation.lost g (.start spawner) = [] → ∀ error reports lost,
    (g.start spawner).2 = .error (.failed error reports lost) → (∀ reason, error ≠ .spawn reason) →
      reports = [] ∧ (g.start spawner).1.slots = g.slots ∧ (g.start spawner).1.queues = g.queues
  /-- If the system refuses a thread, the subgraphs before it have been started, and are stopped. -/
  refused : g.runs = none → g.subgraphs ≠ [] →
    (∀ s ∈ g.subgraphs, Schedule.Acyclic (g.partition.edges s)) →
    ∀ spawner, Operation.lost g (.start spawner) = [] →
    ∀ reason, g.subgraphs.findSome? spawner.refusal = some reason →
      (∃ reports, (g.start spawner).2 = .error (.failed (.spawn reason) reports [])) ∧
        ∃ launched, g.Started (g.subgraphs.takeWhile spawner.grants) launched ∧
          launched.Stopped (g.start spawner).1
  started : ∀ spawner, Operation.lost g (.start spawner) = [] → ∀ reports,
    (g.start spawner).2 = .ok reports → g.Started g.subgraphs (g.start spawner).1
  /-- A connected node is in one of the subgraphs. -/
  connected : ∀ {node s}, g.subgraphOf node = some s → s ∈ g.subgraphs
  stopped : g.runs ≠ none → g.stop.2.2 = [] → g.Stopped g.stop.1
  /-- As long as no connection is made and no thread dies, all starts of the stopped graph go
  alike: they have the same subgraphs, and give them the same nodes in the same order, or all
  fail. -/
  rounds : g.runs = none → ∀ more, g.accepted more = [] → g.KeepsThreads more →
    (g.after more).runs = none → (g.after more).subgraphs = g.subgraphs ∧
      (∀ s, (g.after more).partition.edges s = g.partition.edges s) ∧
      ∀ spawner, Operation.lost g (.start spawner) = [] →
        Operation.lost (g.after more) (.start spawner) = [] →
        ((∃ reports, ((g.after more).start spawner).2 = .ok reports) ↔
          ∃ reports, (g.start spawner).2 = .ok reports) ∧
        ((g.after more).start spawner).1.duties = (g.start spawner).1.duties

omit [Behaviour σ ω] in
theorem AllHome.isSome_of_mem_homes (h : g.AllHome) : ∀ node ∈ g.homes, node.isSome := by
  intro node hnode
  obtain ⟨k, hk, rfl⟩ := List.mem_iff_getElem.1 hnode
  have hk : k < g.slots.length := by simpa [homes] using hk
  have hslot : g.slot? ⟨k⟩ = some g.slots[k] := List.getElem?_eq_getElem hk
  have havailable := h ⟨k⟩ _ (by rw [atHome, hslot, Option.map_some])
  simp [homes, havailable]

/-- A start gives each node of the subgraphs that get threads to one thread. -/
theorem Whole.started (h : g.Whole) (hg : g.Consistent t) {runs given : List Run}
    (hplans : g.Plans runs) (hgiven : given.Sublist runs) :
    g.Started (given.map Run.subgraph) (g.forwarded.initialised given) := by
  have hp := hg.represents.wellFormed
  have haway := away_of_initialised g.forwarded given
  have hnodup : (given.flatMap Run.order).Nodup :=
    (hgiven.flatMap Run.order).nodup (hplans.nodup hp)
  have hmem {node : NodeId} : node ∈ given.flatMap Run.order ↔
      ∃ run ∈ given, g.subgraphOf node = some run.subgraph := by
    rw [List.mem_flatMap]
    refine exists_congr fun run ↦ and_congr_right fun hrun ↦ ?_
    exact hplans.mem_order_iff hp (hgiven.subset hrun)
  have hsteps : Steps (· ∈ given.flatMap Run.order) (g.forwarded.manned given)
      (g.forwarded.initialised given) :=
    g.forwarded.steps_initialised fun run hrun id hid ↦ List.mem_flatMap.2 ⟨run, hrun, hid⟩
  have hmanned (node : NodeId) : (g.forwarded.manned given).atHome node =
      if node ∈ given.flatMap Run.order then (g.atHome node).map fun _ ↦ false
      else g.atHome node :=
    atHome_setAvailable g.forwarded _ false node
  have hduties : (g.forwarded.initialised given).duties = some (given.map duty) :=
    (works_initialised g.forwarded given).duties
  obtain ⟨runs', hruns', hmap⟩ := Option.map_eq_some_iff.1 hduties
  constructor
  case threads =>
    refine ⟨runs', hruns', ?_⟩
    have hfst := congrArg (List.map Prod.fst) hmap
    rwa [List.map_map, List.map_map] at hfst
  case once =>
    intro node s hs hnode
    obtain ⟨run, hrun, rfl⟩ := List.mem_map.1 hs
    have hin : node ∈ run.order := (hplans.mem_order_iff hp (hgiven.subset hrun)).2 hnode
    obtain ⟨run', hrun', hduty⟩ := List.mem_map.1 (hmap ▸ List.mem_map_of_mem hrun)
    obtain ⟨hsubgraph, horder⟩ := Prod.mk.inj hduty
    rw [haway]
    refine ⟨List.count_eq_one_of_mem hnodup (List.mem_flatMap.2 ⟨run, hrun, hin⟩), run', ?_,
      hsubgraph, horder ▸ hin⟩
    rwa [hruns', Option.getD_some]
  case others =>
    intro node hnode
    have habsent : node ∉ given.flatMap Run.order := by
      rw [hmem]
      rintro ⟨run, hrun, hs⟩
      exact hnode _ (List.mem_map_of_mem hrun) hs
    rw [haway, hsteps.atHome_eq, hmanned, if_neg habsent]
    exact ⟨habsent, rfl⟩
  case taken =>
    have hhome : ∀ id ∈ given.flatMap Run.order, g.atHome id = some true := by
      intro id hid
      obtain ⟨run, -, hs⟩ := hmem.1 hid
      have hlt : id.index < g.slots.length := hg.index_lt hs
      have hslot : g.atHome id = some g.slots[id.index].available := by
        rw [atHome, slot?, List.getElem?_eq_getElem hlt, Option.map_some]
      rw [hslot, h.allHome hplans.stopped id _ hslot]
    have hplaces : (g.forwarded.initialised given).homes = (g.forwarded.manned given).homes := by
      refine hsteps.homes_eq fun id hid ↦ ?_
      rw [hmanned, if_pos hid, hhome id hid]
      simp
    rw [haway, hplaces]
    exact takeNodes_homes (g := g.forwarded) hnodup hhome

/-- Who is at home behind a stop that loses no thread. -/
theorem atHome_stop (hlost : g.stop.2.2 = []) (node : NodeId) : g.stop.1.atHome node =
    if node ∈ g.away then (g.atHome node).map fun _ ↦ true else g.atHome node := by
  have hsteps : Steps (fun _ ↦ True) g g.destroyed := g.steps_destroyed fun _ _ _ _ ↦ trivial
  rw [stop_of_lost_eq_nil hlost, ← hsteps.atHome_eq]
  exact atHome_setAvailable g.destroyed g.away true node

/-- A stop that loses no thread brings every node home to its own place. -/
theorem Whole.stopped (h : g.Whole) (hlost : g.stop.2.2 = []) : g.Stopped g.stop.1 := by
  have hsteps : Steps (· ∈ g.away) g g.destroyed :=
    g.steps_destroyed fun run hrun id hid ↦ List.mem_flatMap.2 ⟨run, hrun, hid⟩
  have hstop := stop_of_lost_eq_nil hlost
  have hplaces : g.destroyed.homes = g.homes := by
    refine hsteps.homes_eq fun id hid hhome ↦ ?_
    exact (h.home hhome).1 rfl hid
  constructor
  case runs => rfl
  case returned =>
    rw [hstop, ← hplaces]
    exact (g.destroyed.putNodes_homes g.away).symm
  case home => exact (h.stop hlost).isSome_of_mem_homes
  case partition =>
    rw [hstop]
    exact (Works.setAvailable g.destroyed g.away true).partition.trans g.works_destroyed.partition
  case bindings =>
    rw [hstop]
    exact (Works.setAvailable g.destroyed g.away true).bindings.trans g.works_destroyed.bindings
  case kinds =>
    rw [hstop]
    exact (congrArg SignalFlow.kinds (g.destroyed.queues_setAvailable g.away true)).trans
      hsteps.kinds_eq
  case queues =>
    intro queue huse
    rw [hstop]
    exact (congrArg (·[queue.index]?) (g.destroyed.queues_setAvailable g.away true)).trans
      (queue?_destroyed huse g)

namespace Failed

omit [Behaviour σ ω] in
theorem forwarded (h : g.Whole) : g.Failed g.forwarded where
  runs := rfl
  atHome := rfl
  home hstopped := (h.allHome hstopped).isSome_of_mem_homes
  partition := .forwardAll g.partition
  wiring := rfl
  bindings := rfl
  kinds := rfl

/-- Threads that were given nodes and are stopped leave the graph as it was. -/
theorem of_stopped (h : g.Whole) (hg : g.Consistent t) {runs given : List Run}
    (hplans : g.Plans runs) (hgiven : given.Sublist runs)
    (hdead : (g.forwarded.initialised given).dead = [])
    (hlost : (g.forwarded.initialised given).stop.2.2 = []) :
    g.Failed (g.forwarded.initialised given).stop.1 := by
  have hlaunched := h.initialised hplans.stopped hdead
  have hstarted := h.started hg hplans hgiven
  have hstopped := hlaunched.stopped hlost
  have hworks : g.forwarded.relieved.Works (g.forwarded.initialised given).stop.1 :=
    (Works.setAvailable g.forwarded _ false).relieved.trans
      ((works_initialised g.forwarded given).relieved.trans (works_stop _))
  have hsteps : Steps (fun _ ↦ True) (g.forwarded.manned given) (g.forwarded.initialised given) :=
    g.forwarded.steps_initialised fun _ _ _ _ ↦ trivial
  constructor
  case runs => exact hplans.stopped.symm
  case atHome =>
    funext node
    rw [atHome_stop hlost]
    split
    · next hnode =>
      have hmanned : (g.forwarded.initialised given).atHome node =
          (g.atHome node).map fun _ ↦ false := by
        rw [hsteps.atHome_eq]
        rw [away_of_initialised] at hnode
        exact (atHome_setAvailable g.forwarded _ false node).trans (if_pos hnode)
      rw [hmanned, Option.map_map]
      cases hhere : g.atHome node with
      | none => rfl
      | some here => rw [h.allHome hplans.stopped node here hhere]; rfl
    · next hnode =>
      rw [away_of_initialised] at hnode
      rw [hsteps.atHome_eq]
      exact (atHome_setAvailable g.forwarded _ false node).trans (if_neg hnode)
  case home => exact fun _ ↦ hstopped.home
  case partition =>
    rw [hworks.partition]
    exact .forwardAll g.partition
  case wiring => exact hworks.sourceOf
  case bindings => exact hworks.bindings
  case kinds =>
    rw [hstopped.kinds, hsteps.kinds_eq]
    exact congrArg SignalFlow.kinds (g.forwarded.queues_setAvailable _ false)

end Failed

/-! ## Rounds -/

theorem SameTopology.after {operations : List (Operation σ ω)}
    (hmade : g.accepted operations = []) : g.SameTopology (g.after operations) := by
  induction operations generalizing g with
  | nil => exact .refl g
  | cons operation rest ih =>
    obtain ⟨hfirst, hrest⟩ := List.append_eq_nil_iff.1 hmade
    refine .trans ?_ (ih hrest)
    rcases operation.apply_cases g with ⟨-, hsame⟩ | ⟨attempt, c, hc, -⟩
    · exact hsame
    · rw [hfirst] at hc
      cases hc

omit [Behaviour σ ω] in
/-- Plans for the same subgraphs with the same nodes and edges give the same duties. -/
theorem map_duty_congr {subgraphs : List SubgraphId} {runs runs' : List Run}
    (hnodes : ∀ s, g'.partition.nodes s = g.partition.nodes s)
    (hedges : ∀ s, g'.partition.edges s = g.partition.edges s)
    (hruns : subgraphs.mapM g.plan = .ok runs) (hruns' : subgraphs.mapM g'.plan = .ok runs') :
    runs'.map duty = runs.map duty := by
  have hplans := mapM_eq_ok_iff.1 hruns
  have hplans' := mapM_eq_ok_iff.1 hruns'
  clear hruns hruns'
  induction hplans generalizing runs' with
  | nil =>
    cases hplans'
    rfl
  | @cons _ run _ runs hplan _ ih =>
    cases hplans' with
    | @cons _ run' _ runs' hplan' hplans' =>
      obtain ⟨hsubgraph, horder⟩ := order_of_plan hplan
      obtain ⟨hsubgraph', horder'⟩ := order_of_plan hplan'
      rw [hnodes, hedges, horder] at horder'
      calc (run' :: runs').map duty
          = (run'.subgraph, run'.order) :: runs'.map duty := rfl
        _ = (run.subgraph, run.order) :: runs.map duty := by
          rw [hsubgraph', hsubgraph, Except.ok.inj horder', ih hplans']

/-- A start gives out the duties that are planned, or none. -/
theorem SafeStart.duties_cases {spawner : Spawner}
    {result : Graph σ ω × Except (StartFault ω) (RunReports ω)} (hstopped : g.runs = none)
    (h : SafeStart g spawner result) : (∃ runs reports, g.Plans runs ∧ result.2 = .ok reports ∧
      result.1.duties = some (runs.map duty)) ∨
    ∃ fault, result.2 = .error fault ∧ result.1.duties = none := by
  cases h with
  | unplanned hnot e => exact .inr ⟨_, rfl, by rw [duties, forwarded, hstopped, Option.map_none]⟩
  | refused => exact .inr ⟨_, rfl, rfl⟩
  | @started runs hplans _ _ reports =>
    exact .inl ⟨runs, reports, hplans, rfl, (works_initialised g.forwarded runs).duties⟩

/-- What a start gives to threads depends on subgraphs only. -/
theorem SafeStart.duties_congr {spawner : Spawner}
    {result result' : Graph σ ω × Except (StartFault ω) (RunReports ω)}
    (hp : g.partition.WellFormed) (hsame : g.partition.SameTopology g'.partition)
    (hstopped : g.runs = none) (hstopped' : g'.runs = none) (h : SafeStart g spawner result)
    (h' : SafeStart g' spawner result')
    (hiff : (∃ reports, result'.2 = .ok reports) ↔ ∃ reports, result.2 = .ok reports) :
    result'.1.duties = result.1.duties := by
  have hforwarded : g.forwarded.partition.SameTopology g'.forwarded.partition := by
    have hforward := Partition.SameTopology.forwardAll g.partition
    have hforward' := Partition.SameTopology.forwardAll g'.partition
    exact hforward.symm.trans (hsame.trans hforward')
  have hp' : g.forwarded.partition.Forest :=
    (hp.congr (Partition.SameTopology.forwardAll g.partition).sameDivision).toForest
  rcases h.duties_cases hstopped with
    ⟨runs, reports, hplans, hok, hduties⟩ | ⟨fault, hfault, hduties⟩
  · obtain ⟨reports', hok'⟩ := hiff.2 ⟨reports, hok⟩
    rcases h'.duties_cases hstopped' with ⟨runs', -, hplans', -, hduties'⟩ | ⟨fault, hfault, -⟩
    · have hruns' := hplans'.plans
      have hsubgraphs : g'.forwarded.subgraphs = g.forwarded.subgraphs := hforwarded.roots_eq
      rw [hsubgraphs] at hruns'
      rw [hduties, hduties', map_duty_congr (hforwarded.nodes_eq hp') (hforwarded.edges_eq hp')
        hplans.plans hruns']
    · rw [hok'] at hfault
      cases hfault
  · rcases h'.duties_cases hstopped' with ⟨-, reports', -, hok', -⟩ | ⟨-, -, hduties'⟩
    · obtain ⟨_, hok⟩ := hiff.1 ⟨reports', hok'⟩
      rw [hfault] at hok
      cases hok
    · rw [hduties, hduties']

/-- A start that loses no thread succeeds if it is planned and all threads are granted. -/
theorem SafeStart.ok_iff {spawner : Spawner}
    {result : Graph σ ω × Except (StartFault ω) (RunReports ω)} (h : SafeStart g spawner result) :
    (∃ reports, result.2 = .ok reports) ↔
      (∃ runs, g.Plans runs) ∧ ∀ s ∈ g.subgraphs, spawner.refusal s = none := by
  cases h with
  | unplanned hnot e =>
    refine ⟨fun ⟨_, hok⟩ ↦ ?_, fun ⟨⟨runs, hplans⟩, _⟩ ↦ absurd hplans (hnot runs)⟩
    cases hok
  | @refused runs reason hplans hrefused =>
    refine ⟨fun ⟨_, hok⟩ ↦ ?_, fun ⟨_, hgranted⟩ ↦ ?_⟩
    · cases hok
    · obtain ⟨run, hrun, hreason⟩ := List.exists_of_findSome?_eq_some hrefused
      have hs : run.subgraph ∈ g.subgraphs := hplans.map_subgraph ▸ List.mem_map_of_mem hrun
      cases (hgranted _ hs).symm.trans hreason
  | @started runs hplans hgranted _ reports =>
    refine ⟨fun _ ↦ ⟨⟨runs, hplans⟩, fun s hs ↦ ?_⟩, fun _ ↦ ⟨reports, rfl⟩⟩
    rw [← hplans.map_subgraph] at hs
    obtain ⟨run, hrun, rfl⟩ := List.mem_map.1 hs
    exact hgranted run hrun

/-- A stopped graph with all nodes at home starts if there is a subgraph, none has a cycle and all
threads are granted. -/
theorem Consistent.start_ok_iff (hg : g.Consistent t) (hrecords : g.partition.Records t.edges)
    (hstopped : g.runs = none) (hhome : g.AllHome) {spawner : Spawner}
    (hsafe : SafeStart g spawner (g.start spawner)) :
    (∃ reports, (g.start spawner).2 = .ok reports) ↔ g.subgraphs ≠ [] ∧
      (∀ s ∈ g.subgraphs, Schedule.Acyclic (g.partition.edges s)) ∧
        ∀ s ∈ g.subgraphs, spawner.refusal s = none := by
  rw [hsafe.ok_iff, hg.exists_plans_iff hrecords hstopped hhome, and_assoc]

theorem Whole.restarts (h : g.Whole) (hg : g.Consistent t) (hstaffed : g.Staffed)
    (hrecords : g.partition.Records t.edges)
    (hname : '\x00' ∉ g.options.threadName.toList) : g.Restarts := by
  have hp := hg.represents.wellFormed
  have hcases (spawner : Spawner) (hlost : Operation.lost g (.start spawner) = []) :
      g.start spawner = (g, .error (.failed .alreadyRunning [] [])) ∨
        g.runs = none ∧ SafeStart g spawner (g.start spawner) := by
    by_cases hrunning : g.isRunning = true
    · exact .inl (start_of_running hrunning spawner)
    · have hstopped : g.runs = none := by simpa [isRunning] using hrunning
      exact .inr ⟨hstopped, safeStart hstopped hname hlost⟩
  have hrunning : g.Failed g :=
    ⟨rfl, rfl, fun hstopped ↦ (h.allHome hstopped).isSome_of_mem_homes, .refl _, rfl, rfl, rfl⟩
  constructor
  case start_ok_iff =>
    intro hstopped spawner hlost
    exact hg.start_ok_iff hrecords hstopped (h.allHome hstopped) (safeStart hstopped hname hlost)
  case failed =>
    intro spawner hlost fault hfault
    rcases hcases spawner hlost with heq | ⟨hstopped, hsafe⟩
    · rw [heq] at hfault ⊢
      cases hfault
      exact ⟨⟨_, _, rfl⟩, hrunning⟩
    · generalize g.start spawner = result at hsafe hfault ⊢
      cases hsafe with
      | unplanned =>
        cases hfault
        exact ⟨⟨_, _, rfl⟩, .forwarded h⟩
      | @refused runs _ hplans _ hdead hlost =>
        cases hfault
        exact ⟨⟨_, _, rfl⟩, .of_stopped h hg hplans (granted_sublist spawner runs) hdead hlost⟩
      | started => cases hfault
  case untouched =>
    intro spawner hlost error reports lost hfault hspawn
    rcases hcases spawner hlost with heq | ⟨hstopped, hsafe⟩
    · rw [heq] at hfault ⊢
      cases hfault
      exact ⟨rfl, rfl, rfl⟩
    · generalize g.start spawner = result at hsafe hfault ⊢
      cases hsafe with
      | unplanned =>
        cases hfault
        exact ⟨rfl, rfl, rfl⟩
      | refused =>
        cases hfault
        exact absurd rfl (hspawn _)
      | started => cases hfault
  case refused =>
    intro hstopped hne hacyclic spawner hlost reason hreason
    have hsafe := safeStart hstopped hname hlost
    obtain ⟨runs, hruns⟩ :=
      (hg.exists_plans_iff hrecords hstopped (h.allHome hstopped)).2 ⟨hne, hacyclic⟩
    generalize g.start spawner = result at hsafe ⊢
    cases hsafe with
    | unplanned hnot => exact absurd hruns (hnot runs)
    | @refused runs reason' hplans hrefused hdead hlost reports =>
      rw [← hplans.map_subgraph, List.findSome?_map] at hreason
      obtain rfl : reason' = reason := Option.some.inj (hrefused.symm.trans hreason)
      refine ⟨⟨reports, rfl⟩, g.forwarded.initialised (granted spawner runs), ?_,
        (h.initialised hstopped hdead).stopped hlost⟩
      rw [← hplans.map_subgraph_granted]
      exact h.started hg hplans (granted_sublist spawner runs)
    | started hplans hgranted =>
      obtain ⟨s, hs, hreason⟩ := List.exists_of_findSome?_eq_some hreason
      rw [← hplans.map_subgraph] at hs
      obtain ⟨run, hrun, rfl⟩ := List.mem_map.1 hs
      cases (hgranted run hrun).symm.trans hreason
  case started =>
    intro spawner hlost reports hok
    rcases hcases spawner hlost with heq | ⟨hstopped, hsafe⟩
    · rw [heq] at hok
      cases hok
    · generalize g.start spawner = result at hsafe hok ⊢
      cases hsafe with
      | unplanned | refused => cases hok
      | started hplans =>
        rw [← hplans.map_subgraph]
        exact h.started hg hplans (.refl _)
  case connected => exact fun hs ↦ hp.mem_roots.2 ⟨_, hs⟩
  case stopped => exact fun _ hlost ↦ h.stopped hlost
  case rounds =>
    intro hstopped more hmade hkeeps hstopped'
    have hsame := SameTopology.after hmade
    have hg' := hg.sameTopology hsame
    have hwhole' := h.after hg hstaffed hname hkeeps
    have hsubgraphs : (g.after more).subgraphs = g.subgraphs := hsame.partition.roots_eq
    have hedges (s : SubgraphId) : (g.after more).partition.edges s = g.partition.edges s :=
      hsame.partition.edges_eq hp.toForest s
    have hname' : '\x00' ∉ (g.after more).options.threadName.toList := by
      rwa [options_after]
    refine ⟨hsubgraphs, hedges, fun spawner hlost hlost' ↦ ?_⟩
    have hsafe := safeStart hstopped hname hlost
    have hsafe' := safeStart hstopped' hname' hlost'
    have hiff : (∃ reports, ((g.after more).start spawner).2 = .ok reports) ↔
        ∃ reports, (g.start spawner).2 = .ok reports := by
      rw [hg.start_ok_iff hrecords hstopped (h.allHome hstopped) hsafe,
        hg'.start_ok_iff (hrecords.sameTopology hsame.partition) hstopped'
          (hwhole'.allHome hstopped') hsafe', hsubgraphs]
      simp only [hedges]
    exact ⟨hiff, hsafe.duties_congr hp hsame.partition hstopped hstopped' hsafe' hiff⟩

/-- Whatever is done to a graph, as long as its threads can be named and none dies it starts if it
has a subgraph, none has a cycle and all threads are granted, a start that fails changes nothing
that counts, and a stop brings all nodes home for the next start. -/
theorem restarts_after (options : Options) (operations : List (Operation σ ω))
    (hname : '\x00' ∉ options.threadName.toList)
    (hkeeps : (empty options).KeepsThreads operations) :
    ((empty options).after operations).Restarts := by
  have hempty : (empty options : Graph σ ω).Whole := ⟨nofun, nofun⟩
  refine (hempty.after (consistent_empty options) (.of_duties_none rfl) hname hkeeps).restarts
    (consistent_after options operations) (staffed_after options operations)
    (records_after options operations) ?_
  rwa [options_after]

/-- Two stages in a row that were stopped start again, with the same duties as before. -/
theorem gainLine_restarts :
    '\x00' ∉ Options.standard.threadName.toList ∧
      (empty .standard).KeepsThreads (gainLine ++ [.stop]) ∧
      (((empty .standard).after (gainLine ++ [.stop])).start .willing).1.duties =
        some [(⟨0⟩, [⟨0⟩, ⟨1⟩])] ∧
      ((empty .standard).after (gainLine ++ [.stop])).Restarts :=
  have hname : '\x00' ∉ Options.standard.threadName.toList := by decide
  have hkeeps : (empty .standard).KeepsThreads (gainLine ++ [.stop]) := by decide
  ⟨hname, hkeeps, by decide, restarts_after .standard (gainLine ++ [.stop]) hname hkeeps⟩

/-- A node that faults in one phase, and gives up when it is asked for its name. -/
structure Touchy where
  phase : Phase

instance : Behaviour Touchy Empty where
  name _ := "touchy"
  naming _ _ := ⟨[], some ⟨none⟩⟩
  perform phase _ node :=
    .done (if phase = node.phase then .error (.fault (.failed "not now")) else .ok (), node)

def touchyPair (phase : Phase) : List (Operation Touchy Empty) :=
  [.add [.output .word] ⟨phase⟩, .add [.input .word] ⟨phase⟩, .connect (.connect ⟨0⟩ ⟨1⟩)]

/-- Options with names that no thread can have. -/
def zeroNamed : Options :=
  { Options.standard with threadName := "\x00" }

omit [Behaviour σ ω] in
/-- A stopped graph in which the first node feeds the second one, and that is all. -/
def IsPair (g : Graph σ ω) : Prop :=
  g.runs = none ∧ g.subgraphs = [⟨0⟩] ∧ g.partition.edges ⟨0⟩ = [(⟨0⟩, ⟨1⟩)]

omit [Behaviour σ ω] in
instance (g : Graph σ ω) : Decidable g.IsPair :=
  inferInstanceAs (Decidable (_ ∧ _ ∧ _))

/-- A stopped graph without a cycle need not start: the system may refuse a thread, a thread may die
before its nodes are initialised, and the names of threads may have a zero in them. And a thread
that lived when the graph was to stop may die of the stop, so that its nodes do not come home. -/
theorem threads_may_fail :
    ((empty .standard).KeepsThreads (gainLine ++ [.stop]) ∧
      ((empty .standard).after (gainLine ++ [.stop])).IsPair ∧
      (((empty .standard).after (gainLine ++ [.stop])).start ⟨fun _ ↦ some "out of threads"⟩).2 =
        .error (.failed (.spawn "out of threads") [] [])) ∧
    ((empty .standard).KeepsThreads (touchyPair .init) ∧
      ((empty .standard).after (touchyPair .init)).IsPair ∧
      (∃ reports, (((empty .standard).after (touchyPair .init)).start .willing).2 =
        .error (.stuck reports [⟨0⟩])) ∧
      (((empty .standard).after (touchyPair .init)).start .willing).1.atHome ⟨0⟩ = some false) ∧
    ((empty zeroNamed).KeepsThreads (touchyPair .reset) ∧
      ((empty zeroNamed).after (touchyPair .reset)).IsPair ∧
      (∃ panic, (((empty zeroNamed).after (touchyPair .reset)).start .willing).2 =
        .error (.panicked panic)) ∧
      (((empty zeroNamed).after (touchyPair .reset)).start .willing).1.atHome ⟨0⟩ = some false) ∧
    (empty .standard).KeepsThreads (touchyPair .destroy ++ [.start .willing]) ∧
      (∃ reports, (((empty .standard).after (touchyPair .destroy)).start .willing).2 =
        .ok reports) ∧
      (((empty .standard).after (touchyPair .destroy ++ [.start .willing])).stop).2.2 = [⟨0⟩] ∧
      ((empty .standard).after (touchyPair .destroy ++ [.start .willing, .stop])).atHome ⟨0⟩ =
        some false := by
  refine ⟨⟨by decide, by decide, rfl⟩, ⟨by decide, by decide, ⟨_, rfl⟩, by decide⟩,
    ⟨by decide, by decide, ⟨_, rfl⟩, by decide⟩, by decide, ⟨_, rfl⟩, by decide, by decide⟩

end SignalFlow.Graph
