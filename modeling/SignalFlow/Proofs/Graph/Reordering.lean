import SignalFlow.Proofs.Graph.Adapters
import SignalFlow.Proofs.Graph.Reading

/-!
# The order of execution is free

Two nodes of a subgraph without an edge between them do not notice each other: neither reads what
the other stores, and they use different queues. So their calls commute, and all orders in which
the edges point forward come to the same.
-/

namespace SignalFlow.Graph

variable {σ ω : Type} [Behaviour σ ω] {g : Graph σ ω} {phase : Phase} {thread : String}
  {a b id : NodeId} {ids : List NodeId} {slot slotA slotB : Slot σ ω} {edges : List Edge}
  {uses : NodeId → QueueId → Prop} {alive : Bool}

/-- The reach of a node that uses some queues. -/
def reachOf (uses : NodeId → QueueId → Prop) (id : NodeId) : Reach :=
  ⟨fun _ ↦ True, uses id⟩

/-- Whether processing a node uses its queues only. -/
def Processes (uses : NodeId → QueueId → Prop) (thread : String) (id : NodeId) (role : Role σ) :
    Prop :=
  (role.perform .process (some thread)).Within (reachOf uses id) fun _ ↦ True

/-- What is known of a node when it is called in a phase: what its inputs are attached to has edges
to it, and the call uses the queues of the node only and leaves a role of a kind. -/
structure Ready (edges : List Edge) (uses : NodeId → QueueId → Prop) (phase : Phase)
    (thread : String) (post : NodeId → Role σ → Prop) (id : NodeId) (g : Graph σ ω) : Prop where
  sources : ∀ input source, g.sourceOf ⟨id, input⟩ = some source → (source.node, id) ∈ edges
  within : ∃ slot, g.slot? id = some slot ∧ (slot.node.role.perform phase (some thread)).Within
    (reachOf uses id) fun r ↦ post id r.2

namespace Ready

variable {post post' : NodeId → Role σ → Prop}

theorem congr {g' : Graph σ ω} (h : Ready edges uses phase thread post a g)
    (hsource : g'.sourceOf = g.sourceOf) (hrole : g'.role? a = g.role? a) :
    Ready edges uses phase thread post a g' where
  sources := by
    rw [hsource]
    exact h.sources
  within := by
    obtain ⟨slot, hslot, hwithin⟩ := h.within
    rw [role?, role?, hslot] at hrole
    obtain ⟨slot', hslot', heq⟩ := Option.map_eq_some_iff.1 hrole
    exact ⟨slot', hslot', heq ▸ hwithin⟩

theorem call (h : Ready edges uses phase thread post a g) (phase' : Phase) (hne : a ≠ b) :
    Ready edges uses phase thread post a (g.call phase' (some thread) b).1 where
  sources := by
    rw [(Works.call g phase' (some thread) b).sourceOf]
    exact h.sources
  within := by
    rw [slot?_call g phase' (some thread) (Ne.symm hne)]
    exact h.within

/-- A call leaves queues alone that the node does not use. -/
theorem queues_call (h : Ready edges uses phase thread post a g) {queue : QueueId}
    (hqueue : ¬ uses a queue) :
    (g.call phase (some thread) a).1.queues[queue.index]? = g.queues[queue.index]? := by
  obtain ⟨slot, hslot, hwithin⟩ := h.within
  rw [call_eq hslot]
  exact hwithin.queues_run hqueue ⟨slot.node.ports, g.queues⟩

/-- What comes of a call is the same behind a call of a node that is not read and uses other
queues. -/
theorem performed_call (ha : Ready edges uses phase thread post a g)
    (hb : Ready edges uses phase thread post b g) (hedge : (a, b) ∉ edges)
    (hapart : ∀ queue, uses b queue → ¬ uses a queue) (hslot : g.slot? b = some slot) :
    (g.performed phase (some thread) slot.node).2.1.Alike (uses b)
        ((g.call phase (some thread) a).1.performed phase (some thread) slot.node).2.1 ∧
      ((g.call phase (some thread) a).1.performed phase (some thread) slot.node).1 =
        (g.performed phase (some thread) slot.node).1 := by
  obtain ⟨slot', hslot', hwithin⟩ := hb.within
  obtain rfl : slot' = slot := Option.some.inj (hslot'.symm.trans hslot)
  refine hwithin.run_congr ⟨rfl, fun queue hqueue ↦ ha.queues_call (hapart queue hqueue)⟩ ?_
  intro input source hsource
  have hread : g.sourceOf ⟨b, input⟩ = some source := by
    rw [sourceOf, hslot]
    exact hsource
  have hne : a ≠ source.node := fun heq ↦ hedge (heq ▸ hb.sources input source hread)
  change ((g.call phase (some thread) a).1.slot? source.node).bind _ =
    (g.slot? source.node).bind _
  rw [slot?_call g phase (some thread) hne]

/-- Behind such a call a call leaves the same in the queues of its node. -/
theorem queues_call_call (ha : Ready edges uses phase thread post a g)
    (hb : Ready edges uses phase thread post b g) (hne : a ≠ b) (hedge : (a, b) ∉ edges)
    (hapart : ∀ queue, uses b queue → ¬ uses a queue) {queue : QueueId} (hqueue : uses b queue) :
    ((g.call phase (some thread) a).1.call phase (some thread) b).1.queues[queue.index]? =
      (g.call phase (some thread) b).1.queues[queue.index]? := by
  obtain ⟨slot, hslot, -⟩ := hb.within
  have hslot' : (g.call phase (some thread) a).1.slot? b = some slot := by
    rw [slot?_call g phase (some thread) hne, hslot]
  rw [call_eq hslot', call_eq hslot]
  exact (ha.performed_call hb hedge hapart hslot).1.queues queue hqueue

theorem queues_call_comm (ha : Ready edges uses phase thread post a g)
    (hb : Ready edges uses phase thread post b g) (hne : a ≠ b) (hab : (a, b) ∉ edges)
    (hba : (b, a) ∉ edges) (hapart : ∀ queue, uses a queue → ¬ uses b queue) :
    ((g.call phase (some thread) a).1.call phase (some thread) b).1.queues =
      ((g.call phase (some thread) b).1.call phase (some thread) a).1.queues := by
  have hapart' (queue : QueueId) (hqueue : uses b queue) : ¬ uses a queue :=
    fun h ↦ hapart queue h hqueue
  have ha' := ha.call phase hne
  have hb' := hb.call phase hne.symm
  refine List.ext_getElem? fun k ↦ ?_
  by_cases hqa : uses a ⟨k⟩
  · have hqb := hapart _ hqa
    exact (hb'.queues_call hqb).trans (hb.queues_call_call ha hne.symm hba hapart hqa).symm
  · by_cases hqb : uses b ⟨k⟩
    · exact (ha.queues_call_call hb hne hab hapart' hqb).trans (ha'.queues_call hqa).symm
    · calc ((g.call phase (some thread) a).1.call phase (some thread) b).1.queues[k]?
        _ = (g.call phase (some thread) a).1.queues[k]? := hb'.queues_call hqb
        _ = g.queues[k]? := ha.queues_call hqa
        _ = (g.call phase (some thread) b).1.queues[k]? := (hb.queues_call hqb).symm
        _ = ((g.call phase (some thread) b).1.call phase (some thread) a).1.queues[k]? :=
          (ha'.queues_call hqa).symm

/-- A node that is ready for a reset is ready to be processed behind it. -/
theorem reset (h : Ready edges uses .reset thread (Processes uses thread) a g) :
    Ready edges uses .process thread (fun _ _ ↦ True) a (g.call .reset (some thread) a).1 where
  sources := by
    rw [(Works.call g .reset (some thread) a).sourceOf]
    exact h.sources
  within := by
    obtain ⟨slot, hslot, hwithin⟩ := h.within
    rw [call_eq hslot, slot?_called_self hslot]
    exact ⟨_, rfl, hwithin.post_run ⟨slot.node.ports, g.queues⟩⟩

end Ready

/-- Calls a node, whether or not the thread has come so far. -/
def callNext (phase : Phase) (thread : String) (state : Graph σ ω × Bool) (id : NodeId) :
    Graph σ ω × Bool :=
  let (g, ending, _) := state.1.call phase (some thread) id
  (g, state.2 && (g.reportEnding phase thread id ending).2)

theorem callNext_eq (hslot : g.slot? id = some slot) (phase : Phase) (thread : String)
    (alive : Bool) : callNext phase thread (g, alive) id =
      (g.called id (g.performed phase (some thread) slot.node).2.1
          (g.performed phase (some thread) slot.node).1.2,
        alive && (g.performed phase (some thread) slot.node).1.2.goesOn thread
          (g.performed phase (some thread) slot.node).1.1) := by
  unfold callNext
  rw [call_eq hslot]
  dsimp only
  rw [snd_reportEnding (slot?_called_self hslot _ _)]

omit [Behaviour σ ω] in
theorem called_comm {sceneA sceneA' sceneB sceneB' : Scene PortRef ω} (roleA roleB : Role σ)
    (hne : a ≠ b) (hportsA : sceneA'.ports = sceneA.ports) (hportsB : sceneB'.ports = sceneB.ports)
    (hqueues : sceneB'.queues = sceneA'.queues) :
    (g.called a sceneA roleA).called b sceneB' roleB =
      (g.called b sceneB roleB).called a sceneA' roleA := by
  have hnodes := g.modifyNode_comm (fun _ ↦ ⟨sceneA.ports, roleA⟩)
    (fun _ ↦ ⟨sceneB.ports, roleB⟩) fun heq ↦ absurd heq hne
  calc (g.called a sceneA roleA).called b sceneB' roleB
    _ = { (g.modifyNode a fun _ ↦ ⟨sceneA.ports, roleA⟩).modifyNode b
          fun _ ↦ ⟨sceneB'.ports, roleB⟩ with queues := sceneB'.queues } := rfl
    _ = { (g.modifyNode b fun _ ↦ ⟨sceneB.ports, roleB⟩).modifyNode a
          fun _ ↦ ⟨sceneA'.ports, roleA⟩ with queues := sceneA'.queues } := by
      rw [hportsA, hportsB, hqueues, hnodes]
    _ = (g.called b sceneB roleB).called a sceneA' roleA := rfl

/-- Calls of nodes without edges between them commute, if they use different queues. -/
theorem callNext_comm {post : NodeId → Role σ → Prop}
    (ha : Ready edges uses phase thread post a g) (hb : Ready edges uses phase thread post b g)
    (hne : a ≠ b) (hab : (a, b) ∉ edges) (hba : (b, a) ∉ edges)
    (hapart : ∀ queue, uses a queue → ¬ uses b queue) (alive : Bool) :
    callNext phase thread (callNext phase thread (g, alive) a) b =
      callNext phase thread (callNext phase thread (g, alive) b) a := by
  obtain ⟨slotA, hslotA, -⟩ := ha.within
  obtain ⟨slotB, hslotB, -⟩ := hb.within
  have hqueues := ha.queues_call_comm hb hne hab hba hapart
  obtain ⟨halikeA, hresultA⟩ := hb.performed_call ha hba hapart hslotA
  obtain ⟨halikeB, hresultB⟩ := ha.performed_call hb hab (fun q hb ha ↦ hapart q ha hb) hslotB
  have hslotA' : (g.call phase (some thread) b).1.slot? a = some slotA := by
    rw [slot?_call g phase (some thread) hne.symm, hslotA]
  have hslotB' : (g.call phase (some thread) a).1.slot? b = some slotB := by
    rw [slot?_call g phase (some thread) hne, hslotB]
  rw [call_eq hslotB', call_eq hslotA'] at hqueues
  rw [call_eq hslotB] at halikeA hresultA hslotA' hqueues
  rw [call_eq hslotA] at halikeB hresultB hslotB' hqueues
  rw [callNext_eq hslotA, callNext_eq hslotB', callNext_eq hslotB, callNext_eq hslotA', hresultA,
    hresultB]
  refine Prod.ext (called_comm _ _ hne halikeA.ports halikeB.ports hqueues) ?_
  dsimp only
  rw [Bool.and_assoc, Bool.and_assoc, Bool.and_comm (Role.goesOn _ _ _)]

theorem snd_foldl_callNext (phase : Phase) (thread : String) (ids : List NodeId) (g : Graph σ ω) :
    (ids.foldl (callNext phase thread) (g, false)).2 = false := by
  induction ids generalizing g with
  | nil => rfl
  | cons id ids ih => exact ih _

/-- Visits are calls in a row, if the thread goes on behind all of them. -/
theorem visitAll?_eq_foldl (phase : Phase) (thread : String) (ids : List NodeId) (g : Graph σ ω) :
    visitAll? phase thread ids g = if (ids.foldl (callNext phase thread) (g, true)).2 then
      some (ids.foldl (callNext phase thread) (g, true)).1 else none := by
  induction ids generalizing g with
  | nil => rfl
  | cons id ids ih =>
    have hnext : callNext phase thread (g, true) id = ((g.call phase (some thread) id).1,
        ((g.call phase (some thread) id).1.reportEnding phase thread id
          (g.call phase (some thread) id).2.1).2) := by
      simp only [callNext, Bool.true_and]
    rw [visitAll?_cons, visit?_eq, List.foldl_cons, hnext]
    split
    · next halive =>
      rw [halive]
      exact ih _
    · next hdead =>
      rw [Bool.not_eq_true] at hdead
      rw [hdead, snd_foldl_callNext]
      rfl

/-- Resets and then processes nodes: the graph behind, and whether the thread goes on behind every
call. -/
def executed (g : Graph σ ω) (thread : String) (order : List NodeId) : Graph σ ω × Bool :=
  order.foldl (callNext .process thread) (order.foldl (callNext .reset thread) (g, true))

theorem cycle?_eq_executed (g : Graph σ ω) (run : Run) :
    g.cycle? run = if (g.executed (g.threadName run.subgraph) run.order).2 then
      some (g.executed (g.threadName run.subgraph) run.order).1 else none := by
  unfold cycle? executed
  rw [visitAll?_eq_foldl]
  generalize run.order.foldl (callNext .reset (g.threadName run.subgraph)) (g, true) = reset
  obtain ⟨g', alive⟩ := reset
  cases alive with
  | true => exact visitAll?_eq_foldl _ _ _ _
  | false =>
    rw [snd_foldl_callNext]
    rfl

/-- What is known of the nodes of an order between two calls. -/
def Known (nodes : List NodeId) (edges : List Edge) (uses : NodeId → QueueId → Prop)
    (phase : Phase) (thread : String) (post : NodeId → Role σ → Prop) (id : NodeId)
    (state : Graph σ ω × Bool) : Prop :=
  id ∈ nodes ∧ Ready edges uses phase thread post id state.1

/-- Nodes that are ready come to the same in all orders in which the edges point forward. -/
theorem executed_eq {first second : List NodeId} (hperm : first.Perm second)
    (hnodup : first.Nodup) (hfirst : Schedule.Forward edges first)
    (hsecond : Schedule.Forward edges second)
    (hapart : ∀ a ∈ first, ∀ b ∈ first, a ≠ b → ∀ queue, uses a queue → ¬ uses b queue)
    (hready : ∀ id ∈ first, Ready edges uses .reset thread (Processes uses thread) id g) :
    g.executed thread first = g.executed thread second := by
  have hkeep {phase phase' : Phase} {post : NodeId → Role σ → Prop} {state : Graph σ ω × Bool}
      {a b : NodeId} (hne : a ≠ b) (h : Known first edges uses phase thread post a state) :
      Known first edges uses phase thread post a (callNext phase' thread state b) :=
    ⟨h.1, h.2.call phase' hne⟩
  have hcomm {phase : Phase} {post : NodeId → Role σ → Prop} {state : Graph σ ω × Bool}
      {a b : NodeId} (hne : a ≠ b) (hab : (a, b) ∉ edges) (hba : (b, a) ∉ edges)
      (ha : Known first edges uses phase thread post a state)
      (hb : Known first edges uses phase thread post b state) :
      callNext phase thread (callNext phase thread state a) b =
        callNext phase thread (callNext phase thread state b) a :=
    callNext_comm ha.2 hb.2 hne hab hba (hapart a ha.1 b hb.1 hne) state.2
  have hstart : ∀ id ∈ first,
      Known first edges uses .reset thread (Processes uses thread) id (g, true) :=
    fun id hid ↦ ⟨hid, hready id hid⟩
  have hreset : first.foldl (callNext .reset thread) (g, true) =
      second.foldl (callNext .reset thread) (g, true) :=
    Schedule.foldl_step_of_forward hkeep hcomm hperm hnodup hfirst hsecond hstart
  have hprocess : ∀ id ∈ first, Known first edges uses .process thread (fun _ _ ↦ True) id
      (first.foldl (callNext .reset thread) (g, true)) :=
    Schedule.forall_foldl_step hkeep hkeep (fun h ↦ ⟨h.1, h.2.reset⟩) hnodup hstart
  unfold executed
  rw [← hreset]
  exact Schedule.foldl_step_of_forward hkeep hcomm hperm hnodup hfirst hsecond hprocess

theorem isSome_cycle? (g : Graph σ ω) (run : Run) :
    (g.cycle? run).isSome = (g.cycle run).2.2 := by
  rw [cycle?_eq]
  cases (g.cycle run).2.2 <;> rfl

/-! ## Every cycle -/

/-- Whether nodes share nothing but ports: in a cycle each one that has a state uses its own queues
only, which no other node uses. -/
structure SharesNothing (g : Graph σ ω) (thread : String) (nodes : List NodeId)
    (own : NodeId → QueueId → Prop) : Prop where
  within : ∀ id ∈ nodes, ∀ state, g.role? id = some (.custom state) →
    (Role.custom state).CycleWithin (reachOf own id) (some thread)
  apart : ∀ a ∈ nodes, ∀ b ∈ nodes, a ≠ b → ∀ queue, own a queue → ¬ own b queue
  adapters : ∀ a ∈ nodes, ∀ b ∈ nodes, ∀ queue, own a queue → g.queueOf b ≠ some queue

/-- The queues that a node uses: its own ones, or the one that it was put in for. -/
def usesOf (g : Graph σ ω) (own : NodeId → QueueId → Prop) (id : NodeId) (queue : QueueId) : Prop :=
  own id queue ∨ g.queueOf id = some queue

/-- Whether two orders of the nodes of a thread make no difference to a cycle. -/
structure SameCycle (g : Graph σ ω) (run : Run) (first second : List NodeId) : Prop where
  /-- Resetting and processing all nodes leaves the same nodes, outputs and queues. -/
  executed : g.executed (g.threadName run.subgraph) first =
    g.executed (g.threadName run.subgraph) second
  /-- The thread comes to the end of the cycle in both orders or in none. -/
  alive : (g.cycle { run with order := first }).2.2 = (g.cycle { run with order := second }).2.2
  /-- A cycle that comes to its end leaves the same nodes, outputs and queues. -/
  cycle : (g.cycle { run with order := first }).2.2 = true →
    (g.cycle { run with order := first }).1 = (g.cycle { run with order := second }).1

theorem SameCycle.of_executed {run : Run} {first second : List NodeId}
    (h : g.executed (g.threadName run.subgraph) first =
      g.executed (g.threadName run.subgraph) second) : g.SameCycle run first second := by
  have hcycle : g.cycle? { run with order := first } = g.cycle? { run with order := second } := by
    rw [cycle?_eq_executed, cycle?_eq_executed, h]
  have halive : (g.cycle { run with order := first }).2.2 =
      (g.cycle { run with order := second }).2.2 := by
    rw [← isSome_cycle?, hcycle, isSome_cycle?]
  refine ⟨h, halive, fun hfirst ↦ ?_⟩
  have hsecond := halive.symm.trans hfirst
  rw [cycle?_eq, if_pos hfirst, cycle?_eq, if_pos hsecond] at hcycle
  exact Option.some.inj hcycle

section Reached

variable {t : Topology} {s : SubgraphId} {own : NodeId → QueueId → Prop}

omit [Behaviour σ ω] in
theorem subgraphOf_of_mem_nodes (hp : g.partition.WellFormed) (h : id ∈ g.partition.nodes s) :
    g.subgraphOf id = some ⟨g.partition.root s.index⟩ :=
  hp.of_eq_some_iff.2 (hp.mem_nodes.1 h)

/-- The nodes of a subgraph are ready for a reset. -/
theorem ready_of_mem_nodes (hg : g.Consistent t) (hrecords : g.partition.Records t.edges)
    (hwired : g.Wired t.edges) (hshares : g.SharesNothing thread (g.partition.nodes s) own)
    (h : id ∈ g.partition.nodes s) :
    Ready (g.partition.edges s) (g.usesOf own) .reset thread (Processes (g.usesOf own) thread) id
      g where
  sources := by
    intro input source hsource
    have hp := hg.represents.wellFormed
    obtain ⟨s', -, -, htarget, hedge⟩ := hg.exists_of_sourceOf hrecords hwired hsource
    obtain rfl := Option.some.inj (htarget.symm.trans (subgraphOf_of_mem_nodes hp h))
    rwa [Partition.edges, Partition.survivor, hp.toForest.root_root] at hedge
  within := by
    have hlt := hg.index_lt (subgraphOf_of_mem_nodes hg.represents.wellFormed h)
    have hslot : g.slot? id = some g.slots[id.index] := List.getElem?_eq_getElem hlt
    refine ⟨_, hslot, ?_⟩
    have hrole := role?_of_slot? hslot
    cases hqueue : g.slots[id.index].node.role.queue? with
    | some queue =>
      have huses : g.usesOf own id queue := .inr (by rw [queueOf, hrole]; exact hqueue)
      have hprocess : Processes (g.usesOf own) thread id g.slots[id.index].node.role :=
        Role.within_perform_of_queue? (fun _ ↦ True) hqueue huses trivial .process _
      exact Role.within_perform_of_queue? (Processes (g.usesOf own) thread id) hqueue huses hprocess
        .reset _
    | none =>
      have hwiden {phase : Phase} {role : Role σ} {post post' : Except Stop Unit × Role σ → Prop}
          (hwithin : (role.perform phase (some thread)).Within (reachOf own id) post)
          (hpost : ∀ r, post r → post' r) :
          (role.perform phase (some thread)).Within (reachOf (g.usesOf own) id) post' :=
        hwithin.mono (fun _ h ↦ h) (fun _ h ↦ .inl h) hpost
      cases hnode : g.slots[id.index].node.role with
      | custom state =>
        rw [hnode] at hrole
        exact hwiden (hshares.within id h state hrole) fun r hr ↦ hwiden hr fun _ _ ↦ trivial
      | writer queue | reader queue =>
        rw [hnode] at hqueue
        cases hqueue

theorem not_usesOf (hg : g.Consistent t) (hspanned : g.Spanned t)
    (hshares : g.SharesNothing thread (g.partition.nodes s) own) (ha : a ∈ g.partition.nodes s)
    (hb : b ∈ g.partition.nodes s) (hne : a ≠ b) {queue : QueueId} (h : g.usesOf own a queue) :
    ¬ g.usesOf own b queue := by
  have hp := hg.represents.wellFormed
  rintro (hown' | hqueue')
  · rcases h with hown | hqueue
    · exact hshares.apart a ha b hb hne queue hown hown'
    · exact hshares.adapters b hb a ha queue hown' hqueue
  · rcases h with hown | hqueue
    · exact hshares.adapters a ha b hb queue hown hqueue'
    · exact hne (hspanned.eq_of_queueOf hg (subgraphOf_of_mem_nodes hp ha)
        (subgraphOf_of_mem_nodes hp hb) hqueue hqueue')

/-- Whatever is done to a graph whose inputs are attached by connections only: if the nodes of a
subgraph share nothing but ports, all orders in which the edges point forward come to the same. -/
theorem execution_order_is_free (options : Options) (operations : List (Operation σ ω))
    (hwires : ∀ operation ∈ operations, operation.RewiresNothing) (run : Run)
    (own : NodeId → QueueId → Prop)
    (hshares : ((empty options).after operations).SharesNothing
      (((empty options).after operations).threadName run.subgraph)
      (((empty options).after operations).partition.nodes run.subgraph) own)
    {first second : List NodeId}
    (hfirst : first.Perm (((empty options).after operations).partition.nodes run.subgraph))
    (hsecond : second.Perm (((empty options).after operations).partition.nodes run.subgraph))
    (hforward : Schedule.Forward
      (((empty options).after operations).partition.edges run.subgraph) first)
    (hforward' : Schedule.Forward
      (((empty options).after operations).partition.edges run.subgraph) second) :
    (((empty options).after operations).caughtUp run).SameCycle run first second := by
  have hg := consistent_after options operations
  have hnodup := hfirst.nodup_iff.2 (hg.represents.wellFormed.nodup _)
  have hapart : ∀ a ∈ first, ∀ b ∈ first, a ≠ b → ∀ queue,
      ((empty options).after operations).usesOf own a queue →
        ¬ ((empty options).after operations).usesOf own b queue :=
    fun a ha b hb hne _ ↦ not_usesOf hg (spanned_after options operations) hshares
      (hfirst.mem_iff.1 ha) (hfirst.mem_iff.1 hb) hne
  refine .of_executed (executed_eq (hfirst.trans hsecond.symm) hnodup hforward hforward' hapart ?_)
  intro id hid
  have hready := ready_of_mem_nodes hg (records_after options operations)
    (wired_after options hwires) hshares (hfirst.mem_iff.1 hid)
  rw [threadName_caughtUp]
  exact hready.congr (sourceOf_caughtUp _ run) (role?_caughtUp _ run id)

/-- A speaker with two listeners behind it, and a third one behind a queue. -/
def audience : List (Operation Speaker Empty) :=
  [.add [.output .word] .steady, .add [.input .word] .listener, .add [.input .word] .listener,
    .add [.input .word] .listener, .connect (.connect ⟨0⟩ ⟨1⟩), .connect (.connect ⟨0⟩ ⟨2⟩),
    .connect (.connectQueued ⟨0⟩ ⟨3⟩), .start .willing]

theorem cycleWithin_speaker (speaker : Speaker) (reach : Reach) (thread : Option String) :
    (Role.custom speaker).CycleWithin reach thread := by
  intro _
  cases speaker with
  | steady | listener => exact fun _ ↦ trivial
  | fickle => exact fun _ _ ↦ trivial

/-- The listeners and the writer of the queue may be processed in any order. -/
theorem audience_order_is_free :
    ((empty .standard).after audience).isRunning = true ∧
    ((empty .standard).after audience).partition.nodes ⟨0⟩ = [⟨0⟩, ⟨1⟩, ⟨2⟩, ⟨4⟩] ∧
      (((empty .standard).after audience).caughtUp ⟨⟨0⟩, [⟨0⟩, ⟨1⟩, ⟨2⟩, ⟨4⟩], true⟩).SameCycle
        ⟨⟨0⟩, [⟨0⟩, ⟨1⟩, ⟨2⟩, ⟨4⟩], true⟩ [⟨0⟩, ⟨1⟩, ⟨2⟩, ⟨4⟩] [⟨0⟩, ⟨4⟩, ⟨2⟩, ⟨1⟩] := by
  have hwires : ∀ operation ∈ audience, operation.RewiresNothing := by
    intro operation hmem
    simp only [audience, List.mem_cons, List.not_mem_nil, or_false] at hmem
    rcases hmem with rfl | rfl | rfl | rfl | rfl | rfl | rfl | rfl
    all_goals trivial
  have hshares : ((empty .standard).after audience).SharesNothing
      (((empty .standard).after audience).threadName ⟨0⟩)
      (((empty .standard).after audience).partition.nodes ⟨0⟩) fun _ _ ↦ False :=
    ⟨fun _ _ state _ ↦ cycleWithin_speaker state _ _, fun _ _ _ _ _ _ ↦ False.elim,
      fun _ _ _ _ _ ↦ False.elim⟩
  refine ⟨by decide, by decide, ?_⟩
  exact execution_order_is_free .standard audience hwires ⟨⟨0⟩, [⟨0⟩, ⟨1⟩, ⟨2⟩, ⟨4⟩], true⟩
    (fun _ _ ↦ False) hshares (by decide) (by decide) (by decide) (by decide)

end Reached

end SignalFlow.Graph
