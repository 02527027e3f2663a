import SignalFlow.Demo.Node
import SignalFlow.Proofs.Graph.Motions

/-!
# Every update is delivered once and in order

Beside a graph goes a ledger of the names that were bound, of what was posted for bound controls,
and of what threads attempted to set. For each control the postings are the attempts and behind
them what still waits, all in one order. What waits does so for the subgraph that the node is in
now, whatever was merged, started or stopped since, and the next iteration of that subgraph
attempts all of it.
-/

namespace SignalFlow

open Control

/-- What happened to bindings and deliveries so far. -/
structure Ledger where
  /-- The names that were bound since bindings were removed last, in the order of binding. -/
  bound : List (String × Binding)
  /-- The deliveries that postings asked for, in their order. -/
  posted : List Delivery
  /-- The deliveries that threads attempted, in their order. -/
  attempted : List Delivery

def Ledger.empty : Ledger :=
  ⟨[], [], []⟩

/-- What a name is bound to, in the order of binding. -/
def Ledger.boundTo (l : Ledger) (name : String) : List Binding :=
  (l.bound.filter (·.1 = name)).map (·.2)

namespace Graph

variable {σ ω : Type} {g g' : Graph σ ω} {t : Topology} {l : Ledger} {c : Connection}

/-- The deliveries that an iteration of a subgraph attempts. A dead thread attempts none. -/
def attemptedBy (g : Graph σ ω) (s : SubgraphId) : List Delivery :=
  match g.run? s with
  | none => []
  | some run => if run.alive then g.attempts run (g.partition.waiting s.index) else []

/-- A binding is recorded behind the others of its name. -/
theorem boundTo_bound (h : g.boundTo = l.boundTo) (name : String) (b : Binding) :
    (g.bound name b).boundTo = { l with bound := l.bound ++ [(name, b)] }.boundTo := by
  funext other
  have hold := congrFun h other
  unfold Graph.boundTo Ledger.boundTo at hold
  unfold Graph.boundTo Ledger.boundTo Graph.bound
  rw [NameMap.get?_insert, List.filter_append, List.map_append, ← hold]
  by_cases hother : other = name
  · subst hother
    simp
  · simp [hother, Ne.symm hother]

section Record

variable [Behaviour σ ω]

def record (g : Graph σ ω) (l : Ledger) : Operation σ ω → Ledger
  | .bind ref name storage validator =>
    if (g.bind ref name storage validator).toBool then
      { l with bound := l.bound ++ [(name, ⟨ref.node, ref.port, storage, validator⟩)] }
    else l
  | .unbindAll => if g.unbindAll.toBool then { l with bound := [] } else l
  | .post updates => { l with posted := l.posted ++ addressed l.boundTo g.subgraphOf updates }
  | .iterate s => { l with attempted := l.attempted ++ g.attemptedBy s }
  | _ => l

def recordAll (g : Graph σ ω) (l : Ledger) : List (Operation σ ω) → Ledger
  | [] => l
  | operation :: rest => (operation.apply g).recordAll (g.record l operation) rest

/-- Whether an operation posts updates only with the routes of the moment. -/
def Operation.PostsAtOnce : Operation σ ω → Prop
  | .postThrough _ _ => False
  | _ => True

end Record

/-- A graph with a ledger of its bindings, postings and attempts. -/
structure Accounts (g : Graph σ ω) (l : Ledger) : Prop where
  boundTo : ∀ name, g.boundTo name = l.boundTo name
  routed : g.partition.Routed
  balance : ∀ node, l.posted.filter (·.binding.node = node) =
    l.attempted.filter (·.binding.node = node) ++ g.partition.backlog node

namespace Accounts

theorem empty (options : Options) : (empty options : Graph σ ω).Accounts .empty where
  boundTo _ := rfl
  routed := Partition.routed_empty
  balance _ := rfl

/-- Bindings and what waits for nodes are all that counts. -/
theorem carries (h : g.Accounts l) (hg : g.partition.Carries g'.partition)
    (hbindings : g'.bindings = g.bindings) : g'.Accounts l where
  boundTo name := by
    rw [Graph.boundTo, hbindings]
    exact h.boundTo name
  routed := hg.routed
  balance node := by rw [hg.backlog, h.balance]

theorem congr (h : g.Accounts l) (hpartition : g'.partition = g.partition)
    (hbindings : g'.bindings = g.bindings) : g'.Accounts l :=
  h.carries (.of_eq h.routed (fun _ ↦ by rw [hpartition]) (by rw [hpartition])) hbindings

theorem works (h : g.Accounts l) (hg : g.Works g') : g'.Accounts l :=
  h.congr hg.partition hg.bindings

theorem bound (h : g.Accounts l) (name : String) (b : Binding) :
    (g.bound name b).Accounts { l with bound := l.bound ++ [(name, b)] } where
  routed := h.routed
  balance := h.balance
  boundTo other := congrFun (boundTo_bound (funext h.boundTo) name b) other

theorem unbound (h : g.Accounts l) :
    Accounts { g with bindings := .empty } { l with bound := [] } where
  routed := h.routed
  balance := h.balance
  boundTo _ := rfl

theorem post (h : g.Accounts l) (hp : g.partition.WellFormed) (updates : Updates) :
    (g.post updates).1.Accounts
      { l with posted := l.posted ++ addressed l.boundTo g.subgraphOf updates } where
  boundTo := h.boundTo
  routed := routed_post hp h.routed updates
  balance node := by
    have hbound : l.boundTo = g.boundTo := funext fun name ↦ (h.boundTo name).symm
    calc
      (l.posted ++ addressed l.boundTo g.subgraphOf updates).filter (·.binding.node = node) =
          l.posted.filter (·.binding.node = node) ++
            (addressed g.boundTo g.subgraphOf updates).filter (·.binding.node = node) := by
        rw [List.filter_append, hbound]
      _ = l.attempted.filter (·.binding.node = node) ++ (g.partition.backlog node ++
            (addressed g.boundTo g.subgraphOf updates).filter (·.binding.node = node)) := by
        rw [h.balance, List.append_assoc]
      _ = l.attempted.filter (·.binding.node = node) ++
          (g.post updates).1.partition.backlog node := by rw [backlog_post hp]

theorem receive (h : g.Accounts l) (hp : g.partition.WellFormed) {s : SubgraphId}
    (hs : g.partition.Survives s.index) :
    Accounts { g with partition := (g.partition.receive s).2 }
      { l with attempted := l.attempted ++ g.partition.waiting s.index } where
  boundTo := h.boundTo
  routed := Partition.routed_receive h.routed s
  balance node := by
    calc
      l.posted.filter (·.binding.node = node) =
          l.attempted.filter (·.binding.node = node) ++ g.partition.backlog node :=
        h.balance node
      _ = (l.attempted ++ g.partition.waiting s.index).filter (·.binding.node = node) ++
          (g.partition.receive s).2.backlog node :=
        h.routed.addressed.balance_receive hp hs node l.attempted

/-- A living thread attempts all that waits for its subgraph. -/
theorem attemptedBy_eq (h : g.Accounts l) (hg : g.Consistent t) (hstaffed : g.Staffed)
    {s : SubgraphId} {run : Run} (hrun : g.run? s = some run) (halive : run.alive = true) :
    g.attemptedBy s = g.partition.waiting s.index := by
  obtain ⟨rfl, runs, hruns, hmem⟩ := run?_eq_some hrun
  simp only [attemptedBy, hrun]
  rw [if_pos halive, attempts_waiting hg hstaffed h.routed.addressed hruns hmem]

variable [Behaviour σ ω]

theorem iterate (h : g.Accounts l) (hg : g.Consistent t) (hstaffed : g.Staffed) {s : SubgraphId}
    {run : Run} (hrun : g.run? s = some run) :
    (g.iterate run).1.Accounts { l with attempted := l.attempted ++ g.attemptedBy s } := by
  cases halive : run.alive with
  | false =>
    have hnone : g.attemptedBy s = [] := by simp [attemptedBy, hrun, halive]
    have hsame : (g.iterate run).1 = g := by simp [Graph.iterate, halive]
    rw [hnone, hsame, List.append_nil]
    exact h
  | true =>
    have hp := hg.represents.wellFormed
    rw [h.attemptedBy_eq hg hstaffed hrun halive]
    obtain ⟨rfl, runs, hruns, hmem⟩ := run?_eq_some hrun
    exact (h.receive hp (hstaffed.survives hp hruns hmem)).works (works_iterate halive)

theorem start (h : g.Accounts l) (hp : g.partition.WellFormed) (spawner : Spawner) :
    (g.start spawner).1.Accounts l := by
  by_cases hrunning : g.isRunning = true
  · rw [start_of_running hrunning]
    exact h
  · have hstopped : g.runs = none := by simpa [isRunning] using hrunning
    have hforwarded : g.forwarded.Accounts l :=
      h.carries (Partition.Carries.forwardAll h.routed hp) rfl
    have hrelieved : g.forwarded.relieved.Accounts l := hforwarded.congr rfl rfl
    exact (hrelieved.works (works_start hstopped spawner)).congr rfl rfl

theorem apply (h : g.Accounts l) (hg : g.Consistent t) (hstaffed : g.Staffed)
    {operation : Operation σ ω} (hposts : operation.PostsAtOnce) :
    (operation.apply g).Accounts (g.record l operation) := by
  have hp := hg.represents.wellFormed
  cases operation with
  | connect attempt =>
    rcases Operation.connect_cases g attempt with ⟨-, hsame⟩ | ⟨c, -, hok⟩
    · exact hsame.symm ▸ h
    · have hextends := hg.extends_result hok
      refine h.carries ?_ (attempt.kept_of_ok hok).2.2.1
      have hp' := (hg.connected hextends).represents.wellFormed
      rw [hextends.partition] at hp' ⊢
      have hshifts := Partition.Shifts.extend h.routed.addressed hg.represents hextends.allows
      exact hshifts.carries hp hp' h.routed
  | bind ref name storage validator =>
    simp only [Operation.apply, record]
    rcases hok : g.bind ref name storage validator with e | g'
    · exact h
    · obtain ⟨-, rfl⟩ := bind_eq_ok hok
      exact h.bound name _
  | unbindAll =>
    simp only [Operation.apply, record]
    rcases hok : g.unbindAll with e | g'
    · exact h
    · obtain ⟨-, rfl⟩ := unbindAll_eq_ok_iff.1 hok
      exact h.unbound
  | post updates => exact h.post hp updates
  | postThrough handle updates => exact hposts.elim
  | iterate s =>
    simp only [Operation.apply, record]
    rcases hrun : g.run? s with _ | run
    · simpa [attemptedBy, hrun] using h
    · exact h.iterate hg hstaffed hrun
  | start spawner => exact h.start hp spawner
  | stop =>
    have hrelieved : g.relieved.Accounts l := h.congr rfl rfl
    exact hrelieved.works g.works_stop
  | add ports state => exact h.works (.push g ports _)
  | call phase node =>
    simp only [Operation.apply]
    split
    · exact h.works (.call g phase none node)
    · exact h
  | access node ports state =>
    simp only [Operation.apply]
    split
    · exact h.congr rfl rfl
    · exact h
  | addQueue _ _ | changeQueue _ _ => exact h.congr rfl rfl

/-- The ledger is right behind any operations, since it goes along with the graph. -/
theorem after (h : g.Accounts l) (hg : g.Consistent t) (hstaffed : g.Staffed)
    {operations : List (Operation σ ω)}
    (hposts : ∀ operation ∈ operations, operation.PostsAtOnce) :
    (g.after operations).Accounts (g.recordAll l operations) := by
  induction operations generalizing g t l with
  | nil => exact h
  | cons operation rest ih =>
    exact ih (h.apply hg hstaffed (hposts operation List.mem_cons_self)) (hg.apply operation)
      (hstaffed.apply hg operation)
      (fun later hlater ↦ hposts later (List.mem_cons_of_mem _ hlater))

end Accounts

/-! ## Delivery -/

/-- The deliveries for a port that wait for the subgraph in which its node is now. -/
def pendingFor (g : Graph σ ω) (ref : PortRef) : List Delivery :=
  match g.subgraphOf ref.node with
  | none => []
  | some s => (g.partition.waiting s.index).filter (·.isFor ref)

theorem Accounts.pendingFor_eq (h : g.Accounts l) (hp : g.partition.WellFormed) (ref : PortRef) :
    l.posted.filter (·.isFor ref) = l.attempted.filter (·.isFor ref) ++ g.pendingFor ref := by
  have hpending : g.pendingFor ref =
      (g.partition.backlog ref.node).filter (·.binding.port = ref.port) := by
    unfold pendingFor Partition.backlog
    rcases hnode : g.subgraphOf ref.node with _ | s
    · rw [Partition.WellFormed.of_eq_none_iff.1 hnode]
      rfl
    · rw [hp.of_eq_some_iff.1 hnode]
      exact filter_isFor _ ref
  calc
    l.posted.filter (·.isFor ref) =
        (l.posted.filter (·.binding.node = ref.node)).filter (·.binding.port = ref.port) :=
      filter_isFor _ ref
    _ = (l.attempted.filter (·.binding.node = ref.node)).filter (·.binding.port = ref.port) ++
        (g.partition.backlog ref.node).filter (·.binding.port = ref.port) := by
      rw [h.balance, List.filter_append]
    _ = l.attempted.filter (·.isFor ref) ++ g.pendingFor ref := by rw [filter_isFor, hpending]

section Reached

variable [Behaviour σ ω]

/-- A thread that begins its next iteration with all that waits for its subgraph. -/
structure CatchesUp (g : Graph σ ω) (run : Run) : Prop where
  attempted : g.attemptedBy run.subgraph = g.partition.waiting run.subgraph.index
  first : (g.iterate run).1 = (((g.attemptedBy run.subgraph).foldl attempt
    { g with partition := (g.partition.receive run.subgraph).2 }).advance run).1
  starved : g.isStarved run.subgraph = true →
    (g.iterate run).1 = (g.attemptedBy run.subgraph).foldl attempt
      { g with partition := (g.partition.receive run.subgraph).2 }
  nothing_left : (g.iterate run).1.partition.waiting run.subgraph.index = []

/-- A graph that has delivered, or is about to deliver, what was posted. -/
structure Delivers (g : Graph σ ω) (l : Ledger) : Prop where
  boundTo : ∀ name, g.boundTo name = l.boundTo name
  /-- For each control, the postings are the attempts and behind them what waits. -/
  in_order : ∀ ref, l.posted.filter (·.isFor ref) =
    l.attempted.filter (·.isFor ref) ++ g.pendingFor ref
  /-- Nothing waits where the node of its control is not. -/
  owned : ∀ s : SubgraphId, ∀ d ∈ g.partition.waiting s.index,
    g.subgraphOf d.binding.node = some s
  manned : g.isRunning = true → ∀ {node s}, g.subgraphOf node = some s →
    ∃ run, g.run? s = some run
  catches_up : ∀ {s run}, g.run? s = some run → run.alive = true → g.CatchesUp run
  /-- A posting changes no node. -/
  posting : ∀ updates, (g.post updates).1.slots = g.slots

theorem Accounts.catchesUp (h : g.Accounts l) (hg : g.Consistent t) (hstaffed : g.Staffed)
    {s : SubgraphId} {run : Run} (hrun : g.run? s = some run) (halive : run.alive = true) :
    g.CatchesUp run := by
  have hp := hg.represents.wellFormed
  have hattempted := h.attemptedBy_eq hg hstaffed hrun halive
  obtain ⟨rfl, runs, hruns, hmem⟩ := run?_eq_some hrun
  have hcaughtUp : g.caughtUp run = (g.attemptedBy run.subgraph).foldl attempt
      { g with partition := (g.partition.receive run.subgraph).2 } := by
    rw [caughtUp, attempts_waiting hg hstaffed h.routed.addressed hruns hmem, hattempted]
  constructor
  case attempted => exact hattempted
  case first => rw [fst_iterate halive, hcaughtUp]
  case starved =>
    intro hstarved
    rw [fst_iterate_of_isStarved hp halive hstarved, hcaughtUp]
  case nothing_left =>
    rw [(works_iterate halive).partition]
    exact (Partition.waiting_receive _ _ _).trans (if_pos rfl)

theorem Accounts.delivers (h : g.Accounts l) (hg : g.Consistent t) (hstaffed : g.Staffed) :
    g.Delivers l := by
  have hp := hg.represents.wellFormed
  constructor
  case boundTo => exact h.boundTo
  case in_order => exact h.pendingFor_eq hp
  case owned => exact fun s d hd ↦ hp.of_eq_some_iff.2 (h.routed _ d hd)
  case manned => exact fun hrunning _ _ hnode ↦ hstaffed.exists_run? hp hrunning hnode
  case catches_up => exact fun hrun halive ↦ h.catchesUp hg hstaffed hrun halive
  case posting => exact fun _ ↦ rfl

/-- Whatever is done to a graph, each update that is posted for a bound control is attempted at
most once and in order, and waits until then where the node of the control is. -/
theorem updates_are_delivered (options : Options) (operations : List (Operation σ ω))
    (hposts : ∀ operation ∈ operations, operation.PostsAtOnce) :
    ((empty options).after operations).Delivers
      ((empty options).recordAll .empty operations) := by
  have hstaffed : (empty options : Graph σ ω).Staffed := .of_duties_none rfl
  have haccounts := (Accounts.empty options).after (consistent_empty options) hstaffed hposts
  exact haccounts.delivers (consistent_after options operations) (staffed_after options operations)

/-- Two stages whose gains are set before the stages are joined and again after it. -/
def gainUpdates : List (Operation Demo.Node Empty) :=
  let level := Value.double (Numeric.Binary.zero Numeric.binary64 false)
  let both := (NameMap.empty.insert "second" level).insert "first" level
  .replicate 4 (.add (Demo.Gain.ports (Numeric.Binary.zero Numeric.binary64 false)) .gain) ++
    [.connect (.connect ⟨0⟩ ⟨1⟩), .connect (.connect ⟨2⟩ ⟨3⟩),
      .bind ⟨⟨0⟩, Demo.Gain.gainPort⟩ "first" .double none,
      .bind ⟨⟨2⟩, Demo.Gain.gainPort⟩ "second" .double none,
      .post both, .connect (.connect ⟨1⟩ ⟨2⟩), .unbindAll, .start .willing, .iterate ⟨0⟩]

/-- The updates that were posted before the stages were joined are attempted after it, by the
thread of both. -/
theorem gainUpdates_delivered :
    (∀ operation ∈ gainUpdates, operation.PostsAtOnce) ∧
      ((empty .standard).recordAll .empty gainUpdates).attempted.map
          (fun d ↦ (d.name, d.binding.node)) = [("first", ⟨0⟩), ("second", ⟨2⟩)] ∧
      ((empty .standard).after gainUpdates).Delivers
        ((empty .standard).recordAll .empty gainUpdates) := by
  have hposts : ∀ operation ∈ gainUpdates, operation.PostsAtOnce := by
    intro operation hmem
    simp only [gainUpdates, List.replicate, List.cons_append, List.nil_append, List.mem_cons,
      List.not_mem_nil, or_false] at hmem
    rcases hmem with rfl | rfl | rfl | rfl | rfl | rfl | rfl | rfl | rfl | rfl | rfl | rfl | rfl
    all_goals trivial
  exact ⟨hposts, by decide, updates_are_delivered .standard gainUpdates hposts⟩

end Reached

end Graph

end SignalFlow
