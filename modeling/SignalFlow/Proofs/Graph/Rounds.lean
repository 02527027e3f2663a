import SignalFlow.Proofs.Graph.Restarting
import SignalFlow.Proofs.Graph.Rolls

/-!
# Who is called in a round

A round of a graph is a start, any operations, and a stop. In a round the nodes of a subgraph are
called in the order of execution: all of them to initialise them, in each cycle all of them to reset
and all of them to process them, and all of them to destroy them. How the calls end makes no
difference, as long as a node that faults gives its name to the thread that reports it. A thread to
which it does not give it dies there, and calls nobody any more.
-/

namespace SignalFlow.Graph

variable {σ ω : Type} [Behaviour σ ω] {g g' : Graph σ ω} {t : Topology} {order : List NodeId}
  {s : SubgraphId} {operation : Operation σ ω} {more : List (Operation σ ω)}

/-- A thread that lives and calls the nodes of a subgraph, which are away with it. -/
structure OnDuty (g : Graph σ ω) (s : SubgraphId) (order : List NodeId) : Prop where
  thread : g.run? s = some ⟨s, order, true⟩
  away : ∀ id ∈ order, g.atHome id ≠ some true

omit [Behaviour σ ω] in
/-- The other threads have other subgraphs and other nodes. -/
theorem Staffed.exists_others (h : g.Staffed) (hp : g.partition.WellFormed) {runs : List Run}
    (hruns : g.runs = some runs) {run : Run} (hrun : run ∈ runs) :
    ∃ before behind, runs = before ++ run :: behind ∧ ∀ other ∈ before ++ behind,
      other.subgraph ≠ run.subgraph ∧ ∀ id ∈ other.order, id ∉ run.order := by
  obtain ⟨before, behind, hsplit⟩ := List.append_of_mem hrun
  have hnodup : (runs.map Run.subgraph).Nodup := by
    rw [h.map_subgraph hruns]
    exact Partition.WellFormed.nodup_roots g.partition
  rw [hsplit, List.map_append, List.map_cons, List.nodup_middle, List.nodup_cons,
    ← List.map_append] at hnodup
  refine ⟨before, behind, hsplit, fun other hother ↦ ?_⟩
  have hne : other.subgraph ≠ run.subgraph :=
    fun heq ↦ hnodup.1 (heq ▸ List.mem_map_of_mem hother)
  have hmem : other ∈ runs := by
    rw [hsplit]
    exact List.perm_middle.symm.subset (List.mem_cons_of_mem _ hother)
  refine ⟨hne, fun id hid hid' ↦ hne ?_⟩
  have hof := (h.mem_order_iff hp hruns hmem).1 hid
  exact Option.some.inj (hof.symm.trans ((h.mem_order_iff hp hruns hrun).1 hid'))

namespace OnDuty

omit [Behaviour σ ω] in
theorem congr (h : g.OnDuty s order) (hthread : g'.run? s = g.run? s)
    (hhome : ∀ id ∈ order, g'.atHome id = g.atHome id) : g'.OnDuty s order where
  thread := hthread.trans h.thread
  away id hid := hhome id hid ▸ h.away id hid

omit [Behaviour σ ω] in
theorem isRunning (h : g.OnDuty s order) : g.isRunning = true := by
  obtain ⟨-, runs, hruns, -⟩ := run?_eq_some h.thread
  rw [Graph.isRunning, hruns]
  rfl

omit [Behaviour σ ω] in
theorem mem_order_iff (h : g.OnDuty s order) (hg : g.Consistent t) (hstaffed : g.Staffed)
    {id : NodeId} : id ∈ order ↔ g.subgraphOf id = some s := by
  obtain ⟨-, runs, hruns, hmem⟩ := run?_eq_some h.thread
  exact hstaffed.mem_order_iff hg.represents.wellFormed hruns hmem

omit [Behaviour σ ω] in
theorem not_mem_order (h : g.OnDuty s order) (hg : g.Consistent t) (hstaffed : g.Staffed)
    {runs : List Run} (hruns : g.runs = some runs) {run : Run} (hrun : run ∈ runs)
    (hne : run.subgraph ≠ s) {id : NodeId} (hid : id ∈ run.order) : id ∉ order := by
  intro hmem
  have hother := (hstaffed.mem_order_iff hg.represents.wellFormed hruns hrun).1 hid
  exact hne (Option.some.inj (hother.symm.trans ((h.mem_order_iff hg hstaffed).1 hmem)))

omit [Behaviour σ ω] in
/-- A node that is away is not there for anybody else. -/
theorem not_mem_of_node (h : g.OnDuty s order) {id : NodeId}
    (hnode : (g.node id).toBool = true) : id ∉ order := by
  intro hmem
  refine h.away id hmem ?_
  unfold node at hnode
  unfold atHome
  cases hslot : g.slot? id with
  | none =>
    rw [hslot] at hnode
    cases hnode
  | some slot =>
    rw [hslot] at hnode
    dsimp only at hnode
    split at hnode
    · next havailable => exact congrArg some havailable
    · cases hnode

/-- What the thread of a subgraph does in an iteration of its own: nothing but set controls, or a
cycle in which all nodes are called. -/
theorem iterate_self (h : g.OnDuty s order) (hg : g.Consistent t)
    (hanswers : ∀ c ∈ g.callsIterate ⟨s, order, true⟩, c.answers) :
    (g.iterate ⟨s, order, true⟩).1.OnDuty s order ∧
      roll order (g.callsIterate ⟨s, order, true⟩) =
        if (Operation.iterate s).completes g s then row .reset order ++ row .process order
        else [] := by
  have hp := hg.represents.wellFormed
  have hhome := fun id (_ : id ∈ order) ↦ congrFun (g.atHome_iterate ⟨s, order, true⟩) id
  have hcompletes : (Operation.iterate s).completes g s =
      decide ((g.iterate ⟨s, order, true⟩).2.2 = .cycle) := by
    simp [Operation.completes, kindOf_eq h.thread]
  rw [hcompletes]
  cases hstarved : g.isStarved s with
  | true =>
    have hidle : (g.iterate ⟨s, order, true⟩).2.2 = .idle := by
      rw [kind_iterate rfl, advance, if_neg (by simp), isStarved_caughtUp hp, if_pos hstarved]
    rw [hidle, callsIterate, if_pos (by simp [hstarved])]
    refine ⟨h.congr ?_ hhome, rfl⟩
    rw [fst_iterate_of_isStarved hp rfl hstarved]
    exact run?_congr (OnlyControls.caughtUp g _).runs s
  | false =>
    rw [callsIterate, if_neg (by simp [hstarved])] at hanswers ⊢
    obtain ⟨hroll, halive⟩ := roll_callsCycle (fun _ hid ↦ hid) hanswers
    have hcycle : (g.iterate ⟨s, order, true⟩).2.2 = .cycle := by
      have hfed := (isStarved_caughtUp hp ⟨s, order, true⟩ s).trans hstarved
      rw [kind_iterate rfl, advance_of_fed rfl hfed, if_pos halive]
    rw [hcycle, hroll]
    exact ⟨h.congr (g.run?_iterate (.inr halive)) hhome, rfl⟩

theorem iterate_other (h : g.OnDuty s order) (hg : g.Consistent t) (hstaffed : g.Staffed)
    {runs : List Run} (hruns : g.runs = some runs) {run : Run} (hrun : run ∈ runs)
    (hne : run.subgraph ≠ s) :
    (g.iterate run).1.OnDuty s order ∧ roll order (g.callsIterate run) = [] := by
  refine ⟨h.congr (g.run?_iterate (.inl hne)) fun id _ ↦ congrFun (g.atHome_iterate run) id, ?_⟩
  refine roll_eq_nil fun c hc ↦ ?_
  exact h.not_mem_order hg hstaffed hruns hrun hne (node_mem_of_callsIterate hc)

/-- An operation that does not stop the graph calls the nodes of a subgraph in a cycle of its thread
and otherwise not at all. -/
theorem apply (h : g.OnDuty s order) (hg : g.Consistent t) (hstaffed : g.Staffed)
    (hstop : operation ≠ .stop) (hanswers : ∀ c ∈ operation.calls g, c.node ∈ order → c.answers) :
    (operation.apply g).OnDuty s order ∧ roll order (operation.calls g) =
      if operation.completes g s then row .reset order ++ row .process order else [] := by
  cases operation with
  | stop => exact absurd rfl hstop
  | start spawner =>
    have hnone : g.planned = [] := by rw [planned, if_pos (.inl h.isRunning)]
    refine ⟨?_, ?_⟩
    · rw [Operation.apply, start_of_running h.isRunning]
      exact h
    · rw [Operation.calls, callsStart_eq_nil hnone]
      rfl
  | iterate a =>
    cases hrun : g.run? a with
    | none =>
      have hcompletes : (Operation.iterate a).completes g s = false := by
        by_cases ha : a = s
        · rw [ha, h.thread] at hrun
          cases hrun
        · simp [Operation.completes, ha]
      simp only [Operation.apply, Operation.calls, hrun, hcompletes]
      exact ⟨h, rfl⟩
    | some run =>
      obtain ⟨hsubgraph, runs, hruns, hmem⟩ := run?_eq_some hrun
      simp only [Operation.apply, Operation.calls, hrun, Option.elim_some] at hanswers ⊢
      by_cases ha : a = s
      · subst ha
        obtain rfl := Option.some.inj (h.thread.symm.trans hrun)
        exact h.iterate_self hg fun c hc ↦ hanswers c hc (node_mem_of_callsIterate hc)
      · have hcompletes : (Operation.iterate a).completes g s = false := by
          simp [Operation.completes, ha]
        rw [hcompletes]
        exact h.iterate_other hg hstaffed hruns hmem (hsubgraph ▸ ha)
  | add ports state =>
    refine ⟨h.congr rfl fun id hid ↦ ?_, rfl⟩
    have hlt : id.index < g.nodeCount := hg.index_lt ((h.mem_order_iff hg hstaffed).1 hid)
    exact (atHome_push g ports (.custom state) id).trans (if_neg hlt.ne)
  | connect attempt =>
    refine ⟨?_, rfl⟩
    rcases Operation.connect_cases g attempt with ⟨-, hsame⟩ | ⟨c, -, hok⟩
    · rw [hsame]
      exact h
    · have hrunning := h.isRunning
      rw [Graph.isRunning, (attempt.kept_of_ok hok).1] at hrunning
      cases hrunning
  | bind ref name storage validator =>
    refine ⟨?_, rfl⟩
    rcases Operation.bind_cases g ref name storage validator with hsame | ⟨-, hbound⟩
    · rw [hsame]
      exact h
    · rw [hbound]
      exact h.congr rfl fun _ _ ↦ rfl
  | unbindAll =>
    refine ⟨?_, rfl⟩
    rcases Operation.unbindAll_cases g with hsame | ⟨-, hunbound⟩
    · rw [hsame]
      exact h
    · rw [hunbound]
      exact h.congr rfl fun _ _ ↦ rfl
  | call phase node =>
    simp only [Operation.apply, Operation.calls]
    split
    · next hnode =>
      have hstep : Step (fun _ ↦ True) g (g.call phase none node).1 := .call g phase none trivial
      refine ⟨h.congr (run?_congr (g.runs_call phase none node) s) fun id _ ↦
        congrFun hstep.atHome_eq id, roll_eq_nil fun c hc ↦ ?_⟩
      rw [List.mem_singleton.1 hc]
      exact h.not_mem_of_node hnode
    · exact ⟨h, rfl⟩
  | access node ports state =>
    refine ⟨?_, rfl⟩
    simp only [Operation.apply]
    split
    · refine h.congr rfl fun id _ ↦ congrFun ?_ id
      exact atHome_modifySlot g node fun _ ↦ rfl
    · exact h
  | addQueue _ _ | changeQueue _ _ | post _ | postThrough _ _ =>
    exact ⟨h.congr rfl fun _ _ ↦ rfl, rfl⟩

/-- Operations that do not stop the graph call the nodes of a subgraph once for each cycle. -/
theorem after (h : g.OnDuty s order) (hg : g.Consistent t) (hstaffed : g.Staffed)
    (hstop : .stop ∉ more) (hanswers : ∀ c ∈ g.history more, c.node ∈ order → c.answers) :
    (g.after more).OnDuty s order ∧ roll order (g.history more) =
      (List.replicate (cyclesIn s more g) (row .reset order ++ row .process order)).flatten := by
  induction more generalizing g t with
  | nil => exact ⟨h, rfl⟩
  | cons operation rest ih =>
    obtain ⟨hfirst, hrest⟩ := List.forall_mem_append.1 hanswers
    rw [List.mem_cons, not_or] at hstop
    obtain ⟨hduty, hroll⟩ := h.apply hg hstaffed (Ne.symm hstop.1) hfirst
    obtain ⟨hduty', hroll'⟩ := ih hduty (hg.apply operation) (hstaffed.apply hg operation) hstop.2
      hrest
    refine ⟨hduty', ?_⟩
    calc
      roll order (g.history (operation :: rest)) =
          roll order (operation.calls g) ++ roll order ((operation.apply g).history rest) :=
        roll_append ..
      _ = (if operation.completes g s then row .reset order ++ row .process order else []) ++
            (List.replicate (cyclesIn s rest (operation.apply g))
              (row .reset order ++ row .process order)).flatten := by rw [hroll, hroll']
      _ = (List.replicate (cyclesIn s (operation :: rest) g)
            (row .reset order ++ row .process order)).flatten := by
        rw [cyclesIn, List.replicate_add, List.flatten_append]
        congr 1
        split <;> simp

/-- A stop calls the nodes of a thread to destroy them. -/
theorem stop (h : g.OnDuty s order) (hg : g.Consistent t) (hstaffed : g.Staffed)
    (hanswers : ∀ c ∈ Operation.calls g .stop, c.node ∈ order → c.answers) :
    roll order (Operation.calls g .stop) = row .destroy order := by
  obtain ⟨-, runs, hruns, hrun⟩ := run?_eq_some h.thread
  obtain ⟨before, behind, rfl, hothers⟩ :=
    hstaffed.exists_others hg.represents.wellFormed hruns hrun
  simp only [Operation.calls, callsStop, hruns, Option.getD_some] at hanswers ⊢
  rw [roll_callsEach]
  · refine (roll_callsAll (fun _ hid ↦ hid) fun c hc ↦ ?_).1
    refine hanswers c ?_ (node_mem_of_callsAll hc)
    rw [callsEach_append, callsEach]
    exact List.mem_append_right _ (List.mem_append_left _ hc)
  · intro other hother g c hc
    split at hc
    · exact (hothers other hother).2 _ (node_mem_of_callsAll hc)
    · cases hc

end OnDuty

omit [Behaviour σ ω] in
theorem exists_order_of_plan {run : Run} (h : g.plan s = .ok run) : ∃ order,
    run = ⟨s, order, true⟩ ∧
      Schedule.order (g.partition.nodes s) (g.partition.edges s) = .ok order := by
  obtain ⟨hsubgraph, horder⟩ := order_of_plan h
  refine ⟨run.order, ?_, horder⟩
  unfold plan at h
  rw [horder] at h
  dsimp only at h
  split at h
  · cases h
  · exact (Except.ok.inj h).symm

omit [Behaviour σ ω] in
/-- The plans of a stopped graph hold a run for each of its subgraphs. -/
theorem mem_of_plans (hg : g.Consistent t) {runs : List Run}
    (hruns : g.forwarded.subgraphs.mapM g.forwarded.plan = .ok runs) (hs : s ∈ g.subgraphs) :
    ∃ order, Schedule.order (g.partition.nodes s) (g.partition.edges s) = .ok order ∧
      ⟨s, order, true⟩ ∈ runs := by
  have hp := hg.represents.wellFormed.toForest
  have hforward := Partition.SameTopology.forwardAll g.partition
  have hnodes : g.forwarded.partition.nodes s = g.partition.nodes s := hforward.nodes_eq hp s
  have hedges : g.forwarded.partition.edges s = g.partition.edges s := hforward.edges_eq hp s
  have hsubgraphs : g.forwarded.subgraphs = g.subgraphs := hforward.roots_eq
  have hplans := mapM_eq_ok_iff.1 hruns
  rw [← hsubgraphs] at hs
  obtain ⟨⟨i, hi⟩, rfl⟩ := List.mem_iff_get.1 hs
  have hi' := hplans.length_eq ▸ hi
  obtain ⟨order, hrun, horder⟩ := exists_order_of_plan (hplans.get hi hi')
  rw [hnodes, hedges] at horder
  refine ⟨order, horder, ?_⟩
  rw [← hrun]
  exact List.getElem_mem hi'

/-- When all threads call their nodes in a phase, those of one of them are all called, and it stays
as it is. -/
theorem roll_callsEach_callRun {phase : Phase} {run : Run} {before behind : List Run}
    (hothers : ∀ other ∈ before ++ behind,
      other.subgraph ≠ run.subgraph ∧ ∀ id ∈ other.order, id ∉ run.order)
    (hanswers : ∀ c ∈ callsEach (callRun phase) (callsRun phase) (before ++ run :: behind) g,
      c.node ∈ run.order → c.answers) :
    roll run.order (callsEach (callRun phase) (callsRun phase) (before ++ run :: behind) g) =
        row phase run.order ∧
      (eachRun (callRun phase) (before ++ run :: behind) g).1.run? run.subgraph =
        g.run? run.subgraph := by
  obtain ⟨hbefore, hbehind⟩ := List.forall_mem_append.1 hothers
  have hforeign : ∀ other ∈ before ++ behind, ∀ g : Graph σ ω, ∀ c ∈ callsRun phase g other,
      c.node ∉ run.order :=
    fun other hother g c hc ↦ (hothers other hother).2 _ (node_mem_of_callsAll hc)
  rw [roll_callsEach hforeign]
  rw [callsEach_append, callsEach] at hanswers
  obtain ⟨hroll, halive⟩ := roll_callsAll (fun _ hid ↦ hid) fun c hc ↦
    hanswers c (List.mem_append_right _ (List.mem_append_left _ hc)) (node_mem_of_callsAll hc)
  refine ⟨hroll, ?_⟩
  have hstays {runs : List Run} (hruns : ∀ other ∈ runs, other.subgraph ≠ run.subgraph ∧
      ∀ id ∈ other.order, id ∉ run.order) (g : Graph σ ω) :
      (eachRun (callRun phase) runs g).1.run? run.subgraph = g.run? run.subgraph :=
    run?_eachRun (fun other hother g ↦ run?_callRun phase g (.inl (hruns other hother).1)) g
  rw [fst_eachRun_append, ← hstays hbefore g,
    ← run?_callRun phase (eachRun (callRun phase) before g).1 (.inr halive)]
  exact hstays hbehind _

omit [Behaviour σ ω] in
/-- A graph that was given its threads has one on duty for each run. -/
theorem OnDuty.manned {runs : List Run} (hmanned : (g.manned runs).Staffed)
    (hrun : ⟨s, order, true⟩ ∈ runs) : (g.manned runs).OnDuty s order where
  thread := hmanned.run?_of_mem rfl hrun
  away id hid := by
    have hmem : id ∈ runs.flatMap Run.order := List.mem_flatMap.2 ⟨_, hrun, hid⟩
    change (g.setAvailable (runs.flatMap Run.order) false).atHome id ≠ some true
    rw [atHome_setAvailable, if_pos hmem]
    simp

/-- A start that succeeds gets threads for all runs. -/
theorem exists_plans_of_start_ok {spawner : Spawner} {reports : RunReports ω}
    (hok : (g.start spawner).2 = .ok reports) : ∃ runs, g.Plans runs ∧
      g.callsStart spawner = g.forwarded.callsLaunch runs ∧
      (g.start spawner).1 = g.forwarded.initialised runs := by
  have hstarts := g.starts spawner
  generalize g.start spawner = result at hok hstarts ⊢
  cases hstarts with
  | running | unplanned | unnamed | stuck | refused => cases hok
  | @started runs hplans hname hgranted hdead =>
    exact ⟨runs, hplans, hplans.callsStart_of_granted hname hgranted, rfl⟩

/-- A start that succeeds gives the nodes of a subgraph to a thread, which calls them to initialise
them. -/
theorem OnDuty.of_start (hg : g.Consistent t) {spawner : Spawner} {reports : RunReports ω}
    (hok : (g.start spawner).2 = .ok reports) (hs : s ∈ g.subgraphs)
    (hanswers : ∀ c ∈ g.callsStart spawner, c.node ∈ g.partition.nodes s → c.answers) :
    ∃ order, Schedule.order (g.partition.nodes s) (g.partition.edges s) = .ok order ∧
      (g.start spawner).1.OnDuty s order ∧
      roll order (g.callsStart spawner) = row .init order := by
  obtain ⟨runs, hplans, hcalls, hstart⟩ := exists_plans_of_start_ok hok
  obtain ⟨order, horder, hrun⟩ := mem_of_plans hg hplans.plans hs
  refine ⟨order, horder, ?_⟩
  have hnodes := Schedule.perm_of_order (hg.represents.wellFormed.nodup _) horder
  have hp : g.forwarded.partition.WellFormed :=
    hg.represents.wellFormed.congr (Partition.SameTopology.forwardAll g.partition).sameDivision
  have hpartition : (g.forwarded.manned runs).partition = g.forwarded.partition :=
    (Works.setAvailable g.forwarded _ false).partition
  have hmanned : (g.forwarded.manned runs).Staffed := .of_plans hp hplans.plans hpartition rfl
  have hduty := OnDuty.manned hmanned hrun
  have hsteps : Steps (fun _ ↦ True) (g.forwarded.manned runs) (g.forwarded.initialised runs) :=
    g.forwarded.steps_initialised fun _ _ _ _ ↦ trivial
  obtain ⟨before, behind, hsplit, hothers⟩ := hmanned.exists_others (hpartition ▸ hp) rfl hrun
  rw [hcalls, callsLaunch, hsplit] at hanswers
  rw [hcalls, hstart, callsLaunch, hsplit]
  rw [hsplit] at hduty hsteps
  obtain ⟨hroll, hthread⟩ := roll_callsEach_callRun hothers fun c hc hid ↦
    hanswers c hc (hnodes.subset hid)
  exact ⟨hduty.congr hthread fun id _ ↦ congrFun hsteps.atHome_eq id, hroll⟩

/-! ## Rounds -/

omit [Behaviour σ ω] in
theorem roll_congr {nodes : List NodeId} (h : ∀ id, id ∈ nodes ↔ id ∈ order)
    (calls : List (Call σ ω)) : roll nodes calls = roll order calls := by
  simp only [roll, h]

/-- A round of a subgraph: the start succeeds, nothing but the end is a stop, and the nodes of the
subgraph give their names to the thread whenever it has to report a call. -/
structure Round (g : Graph σ ω) (spawner : Spawner) (s : SubgraphId)
    (more : List (Operation σ ω)) : Prop where
  started : ∃ reports, (g.start spawner).2 = .ok reports
  subgraph : s ∈ g.subgraphs
  stop : .stop ∉ more
  answers : ∀ c ∈ g.history (round spawner more), c.node ∈ g.partition.nodes s → c.answers

/-- In a round the nodes of a subgraph live through the cycles of the thread in its order. -/
theorem Round.exists_order {spawner : Spawner} (h : g.Round spawner s more)
    (hg : g.Consistent t) (hstaffed : g.Staffed) :
    ∃ order, Schedule.order (g.partition.nodes s) (g.partition.edges s) = .ok order ∧
      roll (g.partition.nodes s) (g.history (round spawner more)) =
        lifetime order (cyclesIn s (round spawner more) g) := by
  obtain ⟨reports, hok⟩ := h.started
  have hanswers := h.answers
  rw [round, List.cons_append, history] at hanswers
  obtain ⟨hinit, hrest⟩ := List.forall_mem_append.1 hanswers
  rw [history_append] at hrest
  obtain ⟨hcycles, hdestroy⟩ := List.forall_mem_append.1 hrest
  obtain ⟨order, horder, hduty, hrollInit⟩ := OnDuty.of_start hg hok h.subgraph hinit
  have hmem (id : NodeId) : id ∈ g.partition.nodes s ↔ id ∈ order :=
    (Schedule.perm_of_order (hg.represents.wellFormed.nodup _) horder).symm.mem_iff
  -- the thread serves through the operations, and the stop takes it to its end
  have hg' := hg.apply (.start spawner)
  have hstaffed' : (g.start spawner).1.Staffed := hstaffed.apply hg (.start spawner)
  obtain ⟨hduty', hrollCycles⟩ := hduty.after hg' hstaffed' h.stop
    fun c hc hid ↦ hcycles c hc ((hmem _).2 hid)
  have hrollDestroy := hduty'.stop (hg'.after more) (hstaffed'.after hg' more)
    fun c hc hid ↦ hdestroy c (List.mem_append_left _ hc) ((hmem _).2 hid)
  refine ⟨order, horder, ?_⟩
  calc roll (g.partition.nodes s) (g.history (round spawner more))
      = roll order (g.history (round spawner more)) := roll_congr hmem _
    _ = roll order (g.callsStart spawner) ++ (roll order ((g.start spawner).1.history more) ++
          roll order (Operation.calls ((g.start spawner).1.after more) .stop)) := by
      rw [round, List.cons_append, history, roll_append, history_append, roll_append, history,
        history, List.append_nil]
      rfl
    _ = lifetime order (cyclesIn s more (g.start spawner).1) := by
      rw [hrollInit, hrollCycles, hrollDestroy, lifetime, List.append_assoc]
    _ = lifetime order (cyclesIn s (round spawner more) g) := by rw [cyclesIn_round]

/-- Faults make no difference to a round: the nodes of the subgraph are called in an order of
execution; another round of the same nodes and connections with as many cycles calls them in the
same way, whatever its nodes are; and a call changes no node but its own. -/
structure Unswayed (g : Graph σ ω) (spawner : Spawner) (s : SubgraphId)
    (more : List (Operation σ ω)) : Prop where
  ordered : ∃ order : List NodeId,
    Schedule.order (g.partition.nodes s) (g.partition.edges s) = .ok order ∧
      order.Perm (g.partition.nodes s) ∧ Schedule.Forward (g.partition.edges s) order ∧
      roll (g.partition.nodes s) (g.history (round spawner more)) =
        lifetime order (cyclesIn s (round spawner more) g)
  alike : ∀ {σ' ω' : Type} [Behaviour σ' ω'] (options : Options) (past : List (Operation σ' ω'))
    (spawner' : Spawner) (s' : SubgraphId) (more' : List (Operation σ' ω')),
    ((empty options).after past).Round spawner' s' more' →
    ((empty options).after past).partition.nodes s' = g.partition.nodes s →
    ((empty options).after past).partition.edges s' = g.partition.edges s →
    cyclesIn s' (round spawner' more') ((empty options).after past) =
        cyclesIn s (round spawner more) g →
      roll (g.partition.nodes s) (((empty options).after past).history (round spawner' more')) =
        roll (g.partition.nodes s) (g.history (round spawner more))
  alone : ∀ c ∈ g.history (round spawner more), ∀ id ≠ c.node, c.behind.slot? id = c.graph.slot? id

/-- Whatever becomes of the calls of a round, the nodes of a subgraph are called in the same way. -/
theorem faults_change_no_calls (options : Options) (past : List (Operation σ ω))
    (spawner : Spawner) (s : SubgraphId) (more : List (Operation σ ω))
    (h : ((empty options).after past).Round spawner s more) :
    ((empty options).after past).Unswayed spawner s more where
  ordered := by
    have hg := consistent_after options past
    obtain ⟨order, horder, hroll⟩ := h.exists_order hg (staffed_after options past)
    have hnodup : (((empty options).after past).partition.nodes s).Nodup :=
      hg.represents.wellFormed.nodup _
    exact ⟨order, horder, Schedule.perm_of_order hnodup horder,
      Schedule.forward_of_order hnodup horder, hroll⟩
  alike options' past' spawner' s' more' h' hnodes hedges hcycles := by
    obtain ⟨order, horder, hroll⟩ :=
      h.exists_order (consistent_after options past) (staffed_after options past)
    obtain ⟨order', horder', hroll'⟩ :=
      h'.exists_order (consistent_after options' past') (staffed_after options' past')
    rw [hnodes, hedges, horder] at horder'
    obtain rfl := Except.ok.inj horder'
    rw [hnodes, hcycles] at hroll'
    exact hroll'.trans hroll.symm
  alone c _ _ hne := slot?_call c.graph c.phase c.thread hne.symm

/-- Nodes that do nothing. A failing node faults when it is to process, a panicking one gives up,
and a shy one faults and gives up again when it is asked for its name. -/
inductive Temper where
  | calm
  | failing
  | panicking
  | shy
deriving DecidableEq, Repr

instance : Behaviour Temper Empty where
  name _ := "worker"
  naming _
    | .shy => ⟨[], some ⟨none⟩⟩
    | _ => ⟨[], none⟩
  perform
    | .process, _, .failing => .done (.error (.fault (.failed "no signal")), .failing)
    | .process, _, .panicking => .done (.error (.panic ⟨none⟩), .panicking)
    | .process, _, .shy => .done (.error (.fault (.failed "no signal")), .shy)
    | _, _, node => .done (.ok (), node)

def workers (first : Temper) : List (Operation Temper Empty) :=
  [.add [.output .word] first, .add [.input .word] .calm, .connect (.connect ⟨0⟩ ⟨1⟩)]

def shifts : List (Operation Temper Empty) :=
  [.iterate ⟨0⟩, .iterate ⟨0⟩]

/-- A panic in each cycle changes nothing. -/
theorem panicking_is_called :
    ((empty .standard).after (workers .panicking)).Round .willing ⟨0⟩ shifts ∧
    ((empty .standard).after (workers .panicking)).Unswayed .willing ⟨0⟩ shifts ∧
    cyclesIn ⟨0⟩ (round .willing shifts) ((empty .standard).after (workers .panicking)) = 2 := by
  have hround : ((empty .standard).after (workers .panicking)).Round .willing ⟨0⟩ shifts :=
    ⟨⟨_, rfl⟩, by decide, by simp [shifts], by decide⟩
  have hunswayed :=
    faults_change_no_calls .standard (workers .panicking) .willing ⟨0⟩ shifts hround
  exact ⟨hround, hunswayed, by decide⟩

/-- The thread of a shy node dies as soon as it has to report it: the node behind it is not called
in that cycle, and nobody is destroyed. -/
theorem shy_ends_the_round :
    (∃ reports, (((empty .standard).after (workers .shy)).start .willing).2 = .ok reports) ∧
      ⟨0⟩ ∈ ((empty .standard).after (workers .shy)).subgraphs ∧
      .stop ∉ shifts ∧
      ((empty .standard).after (workers .shy)).partition.nodes ⟨0⟩ = [⟨0⟩, ⟨1⟩] ∧
      roll [⟨0⟩, ⟨1⟩] (((empty .standard).after (workers .shy)).history (round .willing shifts)) =
        [(.init, ⟨0⟩), (.init, ⟨1⟩), (.reset, ⟨0⟩), (.reset, ⟨1⟩), (.process, ⟨0⟩)] ∧
      ∀ order n, order.Perm [⟨0⟩, ⟨1⟩] →
        roll [⟨0⟩, ⟨1⟩] (((empty .standard).after (workers .shy)).history (round .willing shifts)) ≠
          lifetime order n := by
  have hroll : roll [⟨0⟩, ⟨1⟩]
      (((empty .standard).after (workers .shy)).history (round .willing shifts)) =
      [(.init, ⟨0⟩), (.init, ⟨1⟩), (.reset, ⟨0⟩), (.reset, ⟨1⟩), (.process, ⟨0⟩)] := by decide
  refine ⟨⟨_, rfl⟩, by decide, by simp [shifts], by decide, hroll, fun order n hperm heq ↦ ?_⟩
  have hdestroyed : (Phase.destroy, (⟨0⟩ : NodeId)) ∈ lifetime order n :=
    List.mem_append_right _ (List.mem_map_of_mem (hperm.mem_iff.2 (by decide)))
  rw [← heq, hroll] at hdestroyed
  exact absurd hdestroyed (by decide)

end SignalFlow.Graph
