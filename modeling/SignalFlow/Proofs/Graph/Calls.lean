import SignalFlow.Proofs.Graph.Homes
import SignalFlow.Proofs.Graph.Reading
import SignalFlow.Proofs.Node.Ends

/-!
# The calls of a history

Whatever is done to a graph, nodes are called one after the other. A call is recorded with the
graph in which it began, so that its events and transfers can be told. What a queue holds behind
operations is what it held before, changed by the transfers of all their calls.
-/

namespace SignalFlow

variable {σ ω : Type} [Behaviour σ ω]

/-- What a call of a node does with queues. -/
def Graph.transfersOf (g : Graph σ ω) (phase : Phase) (thread : Option String) (id : NodeId) :
    List Transfer :=
  (g.slot? id).elim [] fun slot ↦
    (slot.node.role.perform phase thread).transfers g.published ⟨slot.node.ports, g.queues⟩

theorem Graph.transfersOf_of_slot? {g : Graph σ ω} {id : NodeId} {slot : Slot σ ω}
    (hslot : g.slot? id = some slot) (phase : Phase) (thread : Option String) :
    g.transfersOf phase thread id =
      (slot.node.role.perform phase thread).transfers g.published
        ⟨slot.node.ports, g.queues⟩ := by
  rw [transfersOf, hslot, Option.elim_some]

/-- A call of a node, with the graph in which it begins and the name of the thread that makes it,
if a thread does. -/
structure Call (σ ω : Type) where
  graph : Graph σ ω
  phase : Phase
  thread : Option String
  node : NodeId

namespace Call

/-- What the call does with the ports of the node. -/
def events (c : Call σ ω) : List Event :=
  c.graph.eventsOf c.phase c.thread c.node

def transfers (c : Call σ ω) : List Transfer :=
  c.graph.transfersOf c.phase c.thread c.node

end Call

/-- What calls do with queues, one behind the other. -/
def transfersIn (calls : List (Call σ ω)) : List Transfer :=
  calls.flatMap Call.transfers

theorem transfersIn_append (first second : List (Call σ ω)) :
    transfersIn (first ++ second) = transfersIn first ++ transfersIn second :=
  List.flatMap_append

namespace Graph

variable {g g' g'' : Graph σ ω} {phase : Phase} {thread : String} {id : NodeId}
  {ids before behind : List NodeId} {run : Run} {c : Call σ ω} {queue : QueueId}
  {ts ts' : List Transfer}

/-- The calls that are made when nodes are called one after the other. -/
def callsAll (phase : Phase) (thread : String) : List NodeId → Graph σ ω → List (Call σ ω)
  | [], _ => []
  | id :: rest, g =>
    let (g', ending, _) := g.call phase (some thread) id
    ⟨g, phase, some thread, id⟩ ::
      if (g'.reportEnding phase thread id ending).2 then callsAll phase thread rest g' else []

def callsCycle (g : Graph σ ω) (run : Run) : List (Call σ ω) :=
  let thread := g.threadName run.subgraph
  callsAll .reset thread run.order g ++
    (visitAll? .reset thread run.order g).elim [] (callsAll .process thread run.order)

def callsIterate (g : Graph σ ω) (run : Run) : List (Call σ ω) :=
  if !run.alive || g.isStarved run.subgraph then [] else (g.caughtUp run).callsCycle run

/-- The calls that are made when something is done with every run. -/
def callsEach (act : Graph σ ω → Run → Graph σ ω × List (Report ω))
    (calls : Graph σ ω → Run → List (Call σ ω)) : List Run → Graph σ ω → List (Call σ ω)
  | [], _ => []
  | run :: rest, g => calls g run ++ callsEach act calls rest (act g run).1

/-- The calls that are made when all nodes of a run are called. -/
def callsRun (phase : Phase) (g : Graph σ ω) (run : Run) : List (Call σ ω) :=
  callsAll phase (g.threadName run.subgraph) run.order g

/-- The calls that threads make to initialise their nodes. -/
def callsLaunch (g : Graph σ ω) (runs : List Run) : List (Call σ ω) :=
  callsEach (callRun .init) (callsRun .init) runs (g.manned runs)

def callsStop (g : Graph σ ω) : List (Call σ ω) :=
  callsEach (fun g run ↦ if run.alive then callRun .destroy g run else (g, []))
    (fun g run ↦ if run.alive then callsRun .destroy g run else []) (g.runs.getD []) g

/-- The runs for which a start asks for threads. -/
def planned (g : Graph σ ω) : List Run :=
  if g.isRunning ∨ '\x00' ∈ g.options.threadName.toList then []
  else (g.forwarded.subgraphs.mapM g.forwarded.plan).toOption.getD []

/-- The graph that a start takes back because the system has refused a thread. -/
def abandoned (g : Graph σ ω) (spawner : Spawner) : Option (Graph σ ω) :=
  let launched := g.forwarded.initialised (granted spawner g.planned)
  if launched.dead = [] ∧ ¬ ∀ run ∈ g.planned, spawner.refusal run.subgraph = none then
    some launched
  else none

def callsStart (g : Graph σ ω) (spawner : Spawner) : List (Call σ ω) :=
  g.forwarded.callsLaunch (granted spawner g.planned) ++
    (g.abandoned spawner).elim [] callsStop

def Operation.calls (g : Graph σ ω) : Operation σ ω → List (Call σ ω)
  | .call phase node => if (g.node node).toBool then [⟨g, phase, none, node⟩] else []
  | .start spawner => g.callsStart spawner
  | .iterate subgraph => (g.run? subgraph).elim [] g.callsIterate
  | .stop => g.callsStop
  | _ => []

/-- The calls of operations. -/
def history (g : Graph σ ω) : List (Operation σ ω) → List (Call σ ω)
  | [] => []
  | operation :: rest => operation.calls g ++ (operation.apply g).history rest

theorem history_append (g : Graph σ ω) (past more : List (Operation σ ω)) :
    g.history (past ++ more) = g.history past ++ (g.after past).history more := by
  induction past generalizing g with
  | nil => rfl
  | cons operation rest ih =>
    let g' := operation.apply g
    calc
      operation.calls g ++ g'.history (rest ++ more) =
          operation.calls g ++ (g'.history rest ++ (g'.after rest).history more) :=
        congrArg _ (ih g')
      _ = (operation.calls g ++ g'.history rest) ++ (g'.after rest).history more :=
        (List.append_assoc ..).symm

theorem callsAll_cons (phase : Phase) (thread : String) (id : NodeId) (rest : List NodeId)
    (g : Graph σ ω) : callsAll phase thread (id :: rest) g = ⟨g, phase, some thread, id⟩ ::
      (visit? phase thread g id).elim [] (callsAll phase thread rest) := by
  rw [visit?_eq]
  simp only [callsAll]
  split <;> rfl

/-- If the thread goes on behind the first nodes, the calls of the others come behind theirs. -/
theorem callsAll_append (phase : Phase) (thread : String) (before behind : List NodeId)
    (g : Graph σ ω) : callsAll phase thread (before ++ behind) g =
      callsAll phase thread before g ++
        (visitAll? phase thread before g).elim [] (callsAll phase thread behind) := by
  induction before generalizing g with
  | nil => rfl
  | cons first rest ih =>
    rw [List.cons_append, callsAll_cons, callsAll_cons, visitAll?_cons, List.cons_append]
    cases visit? phase thread g first with
    | none => rfl
    | some between => exact congrArg _ (ih between)

/-- A call is made in a row of calls when the thread has come to its node. -/
theorem exists_of_mem_callsAll (h : c ∈ callsAll phase thread ids g) :
    ∃ before behind, ids = before ++ c.node :: behind ∧
      visitAll? phase thread before g = some c.graph ∧ c.phase = phase ∧
        c.thread = some thread := by
  induction ids generalizing g with
  | nil => cases h
  | cons first rest ih =>
    rw [callsAll_cons] at h
    rcases List.mem_cons.1 h with rfl | h
    · exact ⟨[], rest, rfl, rfl, rfl, rfl⟩
    · cases hfirst : visit? phase thread g first with
      | none =>
        rw [hfirst] at h
        cases h
      | some between =>
        rw [hfirst] at h
        obtain ⟨before, behind, rfl, hbefore, hphase, hthread⟩ := ih h
        refine ⟨first :: before, behind, rfl, ?_, hphase, hthread⟩
        rw [visitAll?_cons, hfirst]
        exact hbefore

theorem filter_callsAll_of_not_mem (hid : id ∉ ids) (phase : Phase) (thread : String)
    (g : Graph σ ω) : (callsAll phase thread ids g).filter (·.node = id) = [] := by
  rw [List.filter_eq_nil_iff]
  intro c hc hnode
  obtain ⟨_, _, rfl, -⟩ := exists_of_mem_callsAll hc
  exact hid (of_decide_eq_true hnode ▸ List.mem_append_right _ List.mem_cons_self)

/-- In a row of calls a node is called once, if the thread comes to it. -/
theorem filter_callsAll (hnodup : (before ++ id :: behind).Nodup) (phase : Phase)
    (thread : String) (g : Graph σ ω) :
    (callsAll phase thread (before ++ id :: behind) g).filter (·.node = id) =
      (visitAll? phase thread before g).elim [] fun g' ↦ [⟨g', phase, some thread, id⟩] := by
  have hother := (List.nodup_cons.1 (List.nodup_middle.1 hnodup)).1
  rw [List.mem_append, not_or] at hother
  rw [callsAll_append, List.filter_append, filter_callsAll_of_not_mem hother.1, List.nil_append]
  cases visitAll? phase thread before g with
  | none => rfl
  | some g' =>
    rw [Option.elim_some, Option.elim_some, callsAll_cons, List.filter_cons,
      if_pos (decide_eq_true rfl)]
    cases visit? phase thread g' id with
    | none => rfl
    | some g'' => rw [Option.elim_some, filter_callsAll_of_not_mem hother.2]

/-- The calls of a cycle up to a node that the thread comes to, and from there on. -/
theorem callsCycle_eq {reset between : Graph σ ω} (horder : run.order = before ++ behind)
    (hreset : visitAll? .reset (g.threadName run.subgraph) run.order g = some reset)
    (hbetween : visitAll? .process (g.threadName run.subgraph) before reset = some between) :
    g.callsCycle run =
      (callsAll .reset (g.threadName run.subgraph) run.order g ++
        callsAll .process (g.threadName run.subgraph) before reset) ++
      callsAll .process (g.threadName run.subgraph) behind between := by
  unfold callsCycle
  simp only
  rw [hreset, Option.elim_some, List.append_assoc]
  congr 1
  rw [horder, callsAll_append, hbetween, Option.elim_some]

/-- In a cycle a node is processed once behind all resets, if the thread comes to it. -/
theorem filter_callsCycle (hnodup : run.order.Nodup) (horder : run.order = before ++ id :: behind)
    (g : Graph σ ω) : (g.callsCycle run).filter (·.node = id) =
      (callsAll .reset (g.threadName run.subgraph) run.order g).filter (·.node = id) ++
        ((visitAll? .reset (g.threadName run.subgraph) run.order g).bind
          (visitAll? .process (g.threadName run.subgraph) before)).elim []
            fun g' ↦ [⟨g', .process, some (g.threadName run.subgraph), id⟩] := by
  unfold callsCycle
  rw [List.filter_append]
  congr 1
  cases visitAll? .reset (g.threadName run.subgraph) run.order g with
  | none => rfl
  | some reset =>
    rw [horder] at hnodup ⊢
    exact filter_callsAll hnodup _ _ reset

theorem kind_iterate (halive : run.alive = true) :
    (g.iterate run).2.2 = ((g.caughtUp run).advance run).2.2 := by
  rw [← fst_drain, iterate, if_neg (by simp [halive])]

/-- A living thread that has data executes a cycle, and is buried if it dies in it. -/
theorem advance_of_fed (halive : run.alive = true) (hfed : g.isStarved run.subgraph = false) :
    g.advance run = if (g.cycle run).2.2 then ((g.cycle run).1, (g.cycle run).2.1, .cycle)
      else ((g.cycle run).1.bury run.subgraph, (g.cycle run).2.1 ++ [.unwound], .died) := by
  rw [advance, if_neg (by simp [halive]), if_neg (by simp [hfed])]

/-- What becomes of an iteration of a living thread: nothing if it is starved, and otherwise a cycle
of all its nodes. -/
theorem iterate_cases (hp : g.partition.WellFormed) (halive : run.alive = true) :
    g.isStarved run.subgraph = true ∧ (g.iterate run).2.2 = .idle ∧ g.callsIterate run = [] ∨
      g.isStarved run.subgraph = false ∧ g.callsIterate run = (g.caughtUp run).callsCycle run ∧
        ((g.iterate run).2.2 = .cycle ∧ ((g.caughtUp run).cycle run).2.2 = true ∨
          (g.iterate run).2.2 = .died) := by
  rw [kind_iterate halive, callsIterate]
  have hsame := isStarved_caughtUp hp run run.subgraph
  cases hfed : g.isStarved run.subgraph with
  | true =>
    refine .inl ⟨rfl, ?_, by simp⟩
    rw [advance, if_neg (by simp [halive]), hsame, if_pos hfed]
  | false =>
    refine .inr ⟨rfl, by simp [halive], ?_⟩
    rw [advance_of_fed halive (hsame.trans hfed)]
    cases ((g.caughtUp run).cycle run).2.2 with
    | true => exact .inl ⟨rfl, rfl⟩
    | false => exact .inr rfl

omit [Behaviour σ ω] in
theorem Plans.planned_eq {runs : List Run} (h : g.Plans runs)
    (hname : '\x00' ∉ g.options.threadName.toList) : g.planned = runs := by
  have hstopped : g.isRunning = false := by rw [isRunning, h.stopped]; rfl
  rw [planned, if_neg (by simp [hstopped, hname]), h.plans]
  rfl

omit [Behaviour σ ω] in
theorem planned_eq_nil (hnot : ∀ runs, ¬ g.Plans runs) : g.planned = [] := by
  unfold planned
  split
  · rfl
  · next hstopped =>
    cases hruns : g.forwarded.subgraphs.mapM g.forwarded.plan with
    | error e => rfl
    | ok runs =>
      have hnone : g.forwarded.subgraphs = [] := by
        by_contra hne
        have hstopped : g.runs = none := by simpa [isRunning] using (not_or.1 hstopped).1
        exact hnot runs ⟨hstopped, hne, hruns⟩
      rw [hnone] at hruns
      cases hruns
      rfl

theorem callsStart_eq_nil {spawner : Spawner} (h : g.planned = []) :
    g.callsStart spawner = [] := by
  simp [callsStart, abandoned, h, granted, callsLaunch, callsEach]

theorem callsStart_eq {spawner : Spawner} (h : g.abandoned spawner = none) :
    g.callsStart spawner = g.forwarded.callsLaunch (granted spawner g.planned) := by
  rw [callsStart, h]
  exact List.append_nil _

/-- If the system refuses no thread, a start calls the nodes of all runs. -/
theorem Plans.callsStart_of_granted {spawner : Spawner} {runs : List Run} (h : g.Plans runs)
    (hname : '\x00' ∉ g.options.threadName.toList)
    (hgranted : ∀ run ∈ runs, spawner.refusal run.subgraph = none) :
    g.callsStart spawner = g.forwarded.callsLaunch runs := by
  have hplanned := h.planned_eq hname
  have hnone : g.abandoned spawner = none := by
    rw [abandoned, hplanned]
    exact if_neg fun h ↦ h.2 hgranted
  rw [callsStart_eq hnone, hplanned, granted_eq_self hgranted]

/-- What a start calls: no node, or all nodes of the runs for which it gets threads, which are
destroyed again if the system refuses another one. -/
theorem calls_start (g : Graph σ ω) (spawner : Spawner) :
    g.callsStart spawner = [] ∧ (g.start spawner).1.queues = g.queues ∨
      ∃ runs, g.Plans runs ∧
        (g.callsStart spawner = g.forwarded.callsLaunch (granted spawner runs) ∧
            (g.start spawner).1.queues = (g.forwarded.initialised (granted spawner runs)).queues ∨
          g.callsStart spawner = g.forwarded.callsLaunch (granted spawner runs) ++
              (g.forwarded.initialised (granted spawner runs)).callsStop ∧
            g.abandoned spawner = some (g.forwarded.initialised (granted spawner runs)) ∧
            (g.start spawner).1 = (g.forwarded.initialised (granted spawner runs)).stop.1) := by
  have hstarts := g.starts spawner
  generalize g.start spawner = result at hstarts ⊢
  cases hstarts with
  | running hrunning =>
    exact .inl ⟨callsStart_eq_nil (by rw [planned, if_pos (.inl hrunning)]), rfl⟩
  | unplanned _ hnot => exact .inl ⟨callsStart_eq_nil (planned_eq_nil hnot), rfl⟩
  | unnamed _ hzero =>
    refine .inl ⟨callsStart_eq_nil (by rw [planned, if_pos (.inr hzero)]), ?_⟩
    exact g.forwarded.queues_setAvailable _ false
  | @stuck runs hplans hname hdead =>
    have hplanned := hplans.planned_eq hname
    have hnone : g.abandoned spawner = none := by
      rw [abandoned, hplanned]
      exact if_neg fun h ↦ hdead h.1
    exact .inr ⟨runs, hplans, .inl ⟨by rw [callsStart_eq hnone, hplanned], rfl⟩⟩
  | @refused runs hplans hname hdead reason hrefused =>
    have hplanned := hplans.planned_eq hname
    have hsome : g.abandoned spawner = some (g.forwarded.initialised (granted spawner runs)) := by
      rw [abandoned, hplanned]
      refine if_pos ⟨hdead, fun hgranted ↦ ?_⟩
      rw [List.findSome?_eq_none_iff.2 hgranted] at hrefused
      cases hrefused
    refine .inr ⟨runs, hplans, .inr ⟨?_, hsome, rfl⟩⟩
    rw [callsStart, hsome, hplanned]
    rfl
  | @started runs hplans hname hgranted hdead =>
    refine .inr ⟨runs, hplans, .inl ?_⟩
    rw [granted_eq_self hgranted]
    exact ⟨hplans.callsStart_of_granted hname hgranted, rfl⟩

/-! ## What calls leave in queues -/

/-- Whether transfers with a queue lead from what it holds in one graph to what it holds in another
one. -/
def Moves (queue : QueueId) (g : Graph σ ω) (ts : List Transfer) (g' : Graph σ ω) : Prop :=
  ∀ q, g.queue? queue = some q → Transfer.Obey queue q.queue ts ∧
    g'.queue? queue = some { q with queue := ts.foldl (Transfer.leave queue) q.queue }

namespace Moves

omit [Behaviour σ ω] in
protected theorem rfl (h : ∀ q, g.queue? queue = some q → g'.queue? queue = some q) :
    Moves queue g [] g' :=
  fun q hq ↦ ⟨trivial, h q hq⟩

omit [Behaviour σ ω] in
theorem of_eq (h : g'.queue? queue = g.queue? queue) : Moves queue g [] g' :=
  .rfl fun _ hq ↦ h.trans hq

omit [Behaviour σ ω] in
protected theorem trans (h : Moves queue g ts g') (h' : Moves queue g' ts' g'') :
    Moves queue g (ts ++ ts') g'' := by
  intro q hq
  obtain ⟨hobey, hq'⟩ := h q hq
  obtain ⟨hobey', hq''⟩ := h' _ hq'
  exact ⟨hobey.append hobey', by rw [hq'', List.foldl_append]⟩

theorem call (queue : QueueId) (g : Graph σ ω) (phase : Phase) (thread : Option String)
    (id : NodeId) : Moves queue g (g.transfersOf phase thread id) (g.call phase thread id).1 := by
  intro q hq
  unfold transfersOf
  cases hslot : g.slot? id with
  | none =>
    rw [call_eq_self hslot]
    exact ⟨trivial, hq⟩
  | some slot =>
    rw [call_eq hslot]
    exact ⟨Act.obey_transfers g.published _ hq, Act.queue_run g.published _ hq⟩

theorem callAll (queue : QueueId) (phase : Phase) (thread : String) (ids : List NodeId)
    (g : Graph σ ω) : Moves queue g (transfersIn (callsAll phase thread ids g))
      (Graph.callAll phase thread ids g).1 := by
  induction ids generalizing g with
  | nil => exact of_eq rfl
  | cons id ids ih =>
    have hcall := call queue g phase (some thread) id
    unfold Graph.callAll Graph.callsAll
    simp only
    split
    · exact hcall.trans (ih _)
    · rw [transfersIn, List.flatMap_singleton]
      exact hcall

theorem visitAll (queue : QueueId) (h : visitAll? phase thread ids g = some g') :
    Moves queue g (transfersIn (callsAll phase thread ids g)) g' := by
  have hall := callAll queue phase thread ids g
  rw [visitAll?_eq] at h
  split at h
  · rwa [Option.some.inj h] at hall
  · cases h

theorem cycle (queue : QueueId) (g : Graph σ ω) (run : Run) :
    Moves queue g (transfersIn (g.callsCycle run)) (g.cycle run).1 := by
  have hreset := callAll queue .reset (g.threadName run.subgraph) run.order g
  unfold Graph.cycle callsCycle
  rw [transfersIn_append, visitAll?_eq]
  simp only
  split
  · exact hreset.trans (callAll queue .process _ run.order _)
  · exact hreset.trans (of_eq rfl)

theorem advance (queue : QueueId) {g : Graph σ ω} {run : Run} (halive : run.alive = true)
    (hfed : g.isStarved run.subgraph = false) :
    Moves queue g (transfersIn (g.callsCycle run)) (g.advance run).1 := by
  have hcycle := cycle queue g run
  rw [advance_of_fed halive hfed]
  split
  · exact hcycle
  · exact hcycle

theorem iterate (queue : QueueId) (hp : g.partition.WellFormed) (run : Run) :
    Moves queue g (transfersIn (g.callsIterate run)) (g.iterate run).1 := by
  unfold callsIterate
  cases halive : run.alive with
  | false =>
    have hsame : (g.iterate run).1 = g := by simp [Graph.iterate, halive]
    rw [hsame]
    exact of_eq rfl
  | true =>
    have hqueue : (g.caughtUp run).queue? queue = g.queue? queue := by
      rw [queue?, queues_caughtUp, queue?]
    cases hstarved : g.isStarved run.subgraph with
    | true =>
      rw [fst_iterate_of_isStarved hp halive hstarved]
      exact of_eq hqueue
    | false =>
      rw [fst_iterate halive]
      refine (of_eq hqueue).trans (advance queue halive ?_)
      rw [isStarved_caughtUp hp, hstarved]

theorem callRun (queue : QueueId) (phase : Phase) (g : Graph σ ω) (run : Run) :
    Moves queue g (transfersIn (callsRun phase g run)) (Graph.callRun phase g run).1 := by
  have hall := callAll queue phase (g.threadName run.subgraph) run.order g
  unfold Graph.callRun
  simp only
  split
  · exact hall
  · exact hall

theorem eachRun {act : Graph σ ω → Run → Graph σ ω × List (Report ω)}
    {calls : Graph σ ω → Run → List (Call σ ω)}
    (hact : ∀ (g : Graph σ ω) (run : Run), Moves queue g (transfersIn (calls g run)) (act g run).1)
    (runs : List Run) (g : Graph σ ω) :
    Moves queue g (transfersIn (callsEach act calls runs g)) (Graph.eachRun act runs g).1 := by
  induction runs generalizing g with
  | nil => exact of_eq rfl
  | cons run runs ih =>
    rw [callsEach, transfersIn_append]
    exact (hact g run).trans (ih _)

theorem launch (queue : QueueId) (g : Graph σ ω) (runs : List Run) :
    Moves queue g (transfersIn (g.callsLaunch runs)) (g.initialised runs) := by
  have hmanned : (g.manned runs).queue? queue = g.queue? queue :=
    congrArg (·[queue.index]?) (g.queues_setAvailable _ false)
  exact (of_eq hmanned).trans (eachRun (callRun queue .init) runs _)

theorem stop (queue : QueueId) (g : Graph σ ω) :
    Moves queue g (transfersIn g.callsStop) g.stop.1 := by
  have hdestroyed : Moves queue g (transfersIn g.callsStop) g.destroyed := by
    refine eachRun (fun g run ↦ ?_) (g.runs.getD []) g
    split
    · exact callRun queue .destroy g run
    · exact of_eq rfl
  have hstopped : g.stop.1.queue? queue = g.destroyed.queue? queue :=
    congrArg (·[queue.index]?) (g.destroyed.queues_setAvailable _ true)
  simpa using hdestroyed.trans (of_eq hstopped)

theorem start (queue : QueueId) (g : Graph σ ω) (spawner : Spawner) :
    Moves queue g (transfersIn (g.callsStart spawner)) (g.start spawner).1 := by
  have hforwarded : g.forwarded.queue? queue = g.queue? queue := rfl
  rcases g.calls_start spawner with
    ⟨hcalls, hqueues⟩ | ⟨runs, -, ⟨hcalls, hqueues⟩ | ⟨hcalls, -, hstart⟩⟩
  · rw [hcalls]
    exact of_eq (congrArg (·[queue.index]?) hqueues)
  · have hlaunch := (of_eq hforwarded).trans (launch queue g.forwarded (granted spawner runs))
    rw [hcalls]
    simpa using hlaunch.trans (of_eq (congrArg (·[queue.index]?) hqueues))
  · rw [hcalls, hstart, transfersIn_append]
    exact ((of_eq hforwarded).trans (launch queue g.forwarded _)).trans (stop queue _)

end Moves

omit [Behaviour σ ω] in
theorem queues_connectPorts {source target : PortRef} (h : g.connectPorts source target = .ok g') :
    g'.queues = g.queues := by
  obtain ⟨-, i, -, -, rfl⟩ := connectPorts_eq_ok_iff.1 h
  rfl

/-- A connection by a queue puts an empty one behind those that are there. -/
theorem queues_connectQueuedPorts {source target : PortRef} {capacity : Nat}
    (h : g.connectQueuedPorts source target capacity = .ok (queue, g')) :
    ∃ type, g'.queues = g.queues ++ [⟨type, .ofCapacity capacity⟩] := by
  obtain ⟨-, -, -, -, type, g₁, g₂, hwriter, hreader, _, _, -, -, rfl⟩ :=
    connectQueuedPorts_eq_ok h
  exact ⟨type, (queues_connectPorts hreader).trans (queues_connectPorts hwriter)⟩

theorem queue?_of_result {attempt : Attempt} {connection : Connection} {q : DataQueue}
    (h : attempt.result g = .ok (connection, g')) (hq : g.queue? queue = some q) :
    g'.queue? queue = some q := by
  rcases attempt.result_cases h with
    ⟨source, target, -, hports⟩ | ⟨source, target, capacity, made, -, hports⟩
  · rw [queue?, queues_connectPorts hports]
    exact hq
  · obtain ⟨type, hqueues⟩ := queues_connectQueuedPorts hports
    rw [queue?, hqueues, List.getElem?_append_left (List.getElem?_eq_some_iff.1 hq).1]
    exact hq

theorem length_queues (h : Steps (fun _ ↦ True) g g') : g'.queues.length = g.queues.length := by
  have hlength := congrArg List.length h.kinds_eq
  rwa [kinds, kinds, List.length_map, List.length_map] at hlength

theorem length_queues_initialised (g : Graph σ ω) (runs : List Run) :
    (g.initialised runs).queues.length = g.queues.length := by
  rw [length_queues (steps_initialised g fun _ _ _ _ ↦ trivial)]
  exact congrArg List.length (g.queues_setAvailable _ false)

theorem length_queues_stop (g : Graph σ ω) : g.stop.1.queues.length = g.queues.length := by
  obtain ⟨g', ids, hsteps, hstop⟩ := g.exists_steps_stop
  rw [hstop, ← length_queues hsteps]
  exact congrArg List.length (g'.queues_setAvailable ids true)

/-- An operation keeps the queues that there are, or puts an empty one behind them. -/
theorem queues_apply (g : Graph σ ω) (operation : Operation σ ω) :
    (operation.apply g).queues.length = g.queues.length ∨
      ∃ type capacity, (operation.apply g).queues = g.queues ++ [⟨type, .ofCapacity capacity⟩] := by
  cases operation with
  | connect attempt =>
    rcases Operation.connect_cases g attempt with ⟨-, hsame⟩ | ⟨_, -, hok⟩
    · exact .inl (by rw [hsame])
    · rcases attempt.result_cases hok with
        ⟨source, target, -, hports⟩ | ⟨source, target, capacity, made, -, hports⟩
      · exact .inl (by rw [queues_connectPorts hports])
      · obtain ⟨type, hqueues⟩ := queues_connectQueuedPorts hports
        exact .inr ⟨type, capacity, hqueues⟩
  | bind ref name storage validator =>
    rcases Operation.bind_cases g ref name storage validator with hsame | ⟨-, hbound⟩
    · exact .inl (by rw [hsame])
    · exact .inl (by rw [hbound]; rfl)
  | unbindAll =>
    rcases Operation.unbindAll_cases g with hsame | ⟨-, hunbound⟩
    · exact .inl (by rw [hsame])
    · exact .inl (by rw [hunbound])
  | addQueue type capacity => exact .inr ⟨type, capacity, rfl⟩
  | changeQueue queue change => exact .inl (List.length_modify ..)
  | call phase node =>
    left
    simp only [Operation.apply]
    split
    · exact length_queues (.single (.call g phase none trivial))
    · rfl
  | access node ports state =>
    left
    simp only [Operation.apply]
    split <;> rfl
  | start spawner =>
    left
    change (g.start spawner).1.queues.length = g.queues.length
    rcases g.calls_start spawner with ⟨-, hqueues⟩ | ⟨runs, -, ⟨-, hqueues⟩ | ⟨-, -, hstart⟩⟩
    · rw [hqueues]
    · rw [hqueues]
      exact length_queues_initialised g.forwarded _
    · rw [hstart, length_queues_stop]
      exact length_queues_initialised g.forwarded _
  | iterate subgraph =>
    left
    simp only [Operation.apply]
    cases g.run? subgraph with
    | none => rfl
    | some run =>
      by_cases halive : run.alive = true
      · exact (length_queues ((g.steps_iterate halive).mono fun _ _ ↦ trivial)).trans rfl
      · rw [Option.elim_some, Graph.iterate, if_pos (by simpa using halive)]
  | stop => exact .inl (length_queues_stop g)
  | add _ _ | post _ | postThrough _ _ => exact .inl rfl

/-- A queue that was not there before an operation is empty behind it. -/
theorem items_of_new {operation : Operation σ ω} {q : DataQueue} (hnone : g.queue? queue = none)
    (h : (operation.apply g).queue? queue = some q) : q.queue.items = [] := by
  have hlt : queue.index < (operation.apply g).queues.length := (List.getElem?_eq_some_iff.1 h).1
  have hle : g.queues.length ≤ queue.index := List.getElem?_eq_none_iff.1 hnone
  rcases g.queues_apply operation with hlength | ⟨type, capacity, hqueues⟩
  · omega
  · rw [queue?, hqueues, List.getElem?_append_right hle] at h
    rw [List.mem_singleton.1 (List.mem_of_getElem? h)]
    rfl

/-- What a queue holds behind an operation is what it held before, changed by the transfers of the
calls, unless somebody changes it from outside. -/
theorem Moves.apply (hp : g.partition.WellFormed) {operation : Operation σ ω}
    (hchange : ∀ change, operation ≠ .changeQueue queue change) :
    Moves queue g (transfersIn (operation.calls g)) (operation.apply g) := by
  cases operation with
  | connect attempt =>
    rcases Operation.connect_cases g attempt with ⟨-, hsame⟩ | ⟨_, -, hok⟩
    · exact .of_eq (by rw [hsame])
    · exact .rfl fun _ hq ↦ queue?_of_result hok hq
  | bind ref name storage validator =>
    rcases Operation.bind_cases g ref name storage validator with hsame | ⟨-, hbound⟩
    · exact .of_eq (by rw [hsame])
    · refine .of_eq ?_
      rw [hbound]
      rfl
  | unbindAll =>
    rcases Operation.unbindAll_cases g with hsame | ⟨-, hunbound⟩
    · exact .of_eq (by rw [hsame])
    · refine .of_eq ?_
      rw [hunbound]
      rfl
  | addQueue type capacity =>
    refine .rfl fun q hq ↦ ?_
    exact (List.getElem?_append_left (List.getElem?_eq_some_iff.1 hq).1).trans hq
  | changeQueue changed change =>
    refine .of_eq ?_
    have hne : changed.index ≠ queue.index :=
      fun heq ↦ hchange change (congrArg (Operation.changeQueue · change) (congrArg QueueId.mk heq))
    exact List.getElem?_modify_ne _ _ hne
  | call phase node =>
    simp only [Operation.calls, Operation.apply]
    split
    · simpa [transfersIn, Call.transfers] using Moves.call queue g phase none node
    · exact .of_eq rfl
  | access node ports state =>
    refine .of_eq ?_
    simp only [Operation.apply]
    split <;> rfl
  | start spawner => exact .start queue g spawner
  | iterate subgraph =>
    simp only [Operation.calls, Operation.apply]
    cases g.run? subgraph with
    | none => exact .of_eq rfl
    | some run => exact .iterate queue hp run
  | stop => exact .stop queue g
  | add _ _ | post _ | postThrough _ _ => exact .of_eq rfl

omit [Behaviour σ ω] in
theorem role?_congr (h : g'.slot? id = g.slot? id) : g'.role? id = g.role? id := by
  rw [role?, h, role?]

/-- In a row of calls a node is called as it was before the first one. -/
theorem slot?_of_mem_callsAll (hnodup : ids.Nodup) (h : c ∈ callsAll phase thread ids g) :
    c.graph.slot? c.node = g.slot? c.node := by
  obtain ⟨before, behind, rfl, hbefore, -, -⟩ := exists_of_mem_callsAll h
  refine slot?_visitAll? hbefore fun hmem ↦ ?_
  exact (List.nodup_append.1 hnodup).2.2 _ hmem _ List.mem_cons_self rfl

omit [Behaviour σ ω] in
theorem exists_of_mem_callsEach {act : Graph σ ω → Run → Graph σ ω × List (Report ω)}
    {calls : Graph σ ω → Run → List (Call σ ω)} {runs : List Run}
    (h : c ∈ callsEach act calls runs g) : ∃ before run behind, runs = before ++ run :: behind ∧
      c ∈ calls (eachRun act before g).1 run := by
  induction runs generalizing g with
  | nil => cases h
  | cons run rest ih =>
    rcases List.mem_append.1 h with hfirst | hrest
    · exact ⟨[], run, rest, rfl, hfirst⟩
    · obtain ⟨before, other, behind, rfl, hother⟩ := ih hrest
      exact ⟨run :: before, other, behind, rfl, hother⟩

/-- If threads call their own nodes, and each of them once, all nodes are called as they were before
the first call. -/
theorem slot?_of_mem_callsEach {act : Graph σ ω → Run → Graph σ ω × List (Report ω)}
    {calls : Graph σ ω → Run → List (Call σ ω)} {runs : List Run}
    (hact : ∀ (g : Graph σ ω) (run : Run), Steps (· ∈ run.order) g (act g run).1)
    (hcalls : ∀ (g : Graph σ ω) (run : Run), ∀ c ∈ calls g run, c ∈ callsRun phase g run)
    (hnodup : (runs.flatMap Run.order).Nodup) (h : c ∈ callsEach act calls runs g) :
    c.graph.slot? c.node = g.slot? c.node := by
  obtain ⟨before, run, behind, rfl, hrun⟩ := exists_of_mem_callsEach h
  have hmem := hcalls _ run c hrun
  rw [List.flatMap_append, List.flatMap_cons] at hnodup
  obtain ⟨-, hrest, hapart⟩ := List.nodup_append.1 hnodup
  rw [slot?_of_mem_callsAll (List.nodup_append.1 hrest).1 hmem]
  have hsteps : Steps (· ∈ before.flatMap Run.order) g (eachRun act before g).1 :=
    steps_eachRun (fun run hrun g ↦ (hact g run).mono fun id hid ↦
      List.mem_flatMap.2 ⟨run, hrun, hid⟩) g
  refine hsteps.slot?_eq fun hother ↦ ?_
  obtain ⟨_, _, horder, -⟩ := exists_of_mem_callsAll hmem
  have hnode : c.node ∈ run.order := by
    rw [horder]
    exact List.mem_append_right _ List.mem_cons_self
  exact hapart _ hother _ (List.mem_append_left _ hnode) rfl

end Graph

end SignalFlow
