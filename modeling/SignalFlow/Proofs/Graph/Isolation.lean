import SignalFlow.Proofs.Graph.Turns

/-!
# Subgraphs that are kept apart

If nodes share nothing but ports and the queues of connections, a turn of a thread leaves the nodes
and the own queues of other subgraphs alone. Only the subgraph of its writer gets items accepted by
a queue, and only the subgraph of its reader takes them.
-/

namespace SignalFlow.Graph

open Transfer

variable {σ ω : Type} [Behaviour σ ω] {g x y : Graph σ ω} {t : Topology} {s a p : SubgraphId}
  {ids : List SubgraphId} {own : NodeId → QueueId → Prop} {run run' : Run} {queue : QueueId}
  {id other : NodeId} {nodes : List NodeId} {role : Role σ}

/-- What holds of a graph whose inputs were attached by connections only. -/
structure Built (g : Graph σ ω) (t : Topology) : Prop where
  consistent : g.Consistent t
  records : g.partition.Records t.edges
  wired : g.Wired t.edges
  staffed : g.Staffed
  spanned : g.Spanned t

namespace Built

theorem after (options : Options) {operations : List (Operation σ ω)}
    (hwires : ∀ operation ∈ operations, operation.RewiresNothing) :
    ((empty options).after operations).Built ((empty options).accepted operations) :=
  ⟨consistent_after options operations, records_after options operations,
    wired_after options hwires, staffed_after options operations, spanned_after options operations⟩

theorem turn (h : g.Built t) (s : SubgraphId) : (g.turn s).Built t := by
  have hmade : t ++ Operation.made g (.iterate s) = t := List.append_nil t
  constructor
  case consistent => exact hmade ▸ h.consistent.apply (.iterate s)
  case records => exact hmade ▸ h.consistent.records_apply h.records (.iterate s)
  case wired =>
    have hrewires : (Operation.iterate s : Operation σ ω).RewiresNothing := trivial
    have hwired := h.wired.apply hrewires
    rwa [hmade] at hwired
  case staffed => exact h.staffed.apply h.consistent (.iterate s)
  case spanned => exact hmade ▸ h.spanned.apply (.iterate s)

theorem turns (h : g.Built t) (ids : List SubgraphId) : (g.turns ids).Built t := by
  induction ids using List.reverseRecOn with
  | nil => exact h
  | append_singleton past s ih =>
    rw [turns_concat]
    exact ih.turn s

end Built

/-- Whether nodes share nothing but ports and the queues of connections: in a cycle each one that
has a state uses its own queues only, which no other node uses. -/
structure Isolated (g : Graph σ ω) (own : NodeId → QueueId → Prop) : Prop where
  within : ∀ s id state, g.subgraphOf id = some s → g.role? id = some (.custom state) →
    (Role.custom state).CycleWithin (reachOf own id) (some (g.threadName s))
  apart : ∀ a b queue, own a queue → own b queue → a = b
  adapters : ∀ a b queue, own a queue → g.queueOf b ≠ some queue

omit [Behaviour σ ω] in
theorem mem_nodes_iff (hp : g.partition.WellFormed) (hs : g.partition.Survives s.index) :
    id ∈ g.partition.nodes s ↔ g.subgraphOf id = some s := by
  rw [subgraphOf, hp.of_eq_some_iff, ← hp.mem_nodes, Partition.nodes, Partition.survivor,
    Partition.root_of_survives hs]

theorem Isolated.sharesNothing (h : g.Isolated own) (hp : g.partition.WellFormed)
    (hs : g.partition.Survives s.index) :
    g.SharesNothing (g.threadName s) (g.partition.nodes s) own where
  within id hid state := h.within s id state ((mem_nodes_iff hp hs).1 hid)
  apart a _ b _ hne queue hown hown' := hne (h.apart a b queue hown hown')
  adapters a _ b _ := h.adapters a b

/-- The nodes of a subgraph are laid out so that calls of one do not disturb the others. -/
theorem Built.layout (h : g.Built t) (hisolated : g.Isolated own)
    (hs : g.partition.Survives s.index) :
    g.Layout (g.partition.nodes s) (g.partition.edges s) own where
  edges e he := by
    rw [Partition.edges, Partition.survivor] at he
    exact h.consistent.represents.wellFormed.mem_nodes.2 (h.records.mem_edges.1 he).2
  apart a ha b hb hne _ := not_usesOf h.consistent h.spanned
    (hisolated.sharesNothing h.consistent.represents.wellFormed hs) ha hb hne
  adapters a _ b _ := hisolated.adapters a b

section CycleTurn

variable (h : g.Built t) (hisolated : g.Isolated own) (hturn : g.CycleTurn s run)

omit [Behaviour σ ω] in
theorem Staffed.survives_of_run? (h : g.Staffed) (hp : g.partition.WellFormed)
    (hrun : g.run? s = some run) : g.partition.Survives s.index := by
  obtain ⟨rfl, runs, hruns, hmem⟩ := run?_eq_some hrun
  exact h.survives hp hruns hmem

include h hturn

theorem CycleTurn.nodup_order : run.order.Nodup := by
  obtain ⟨-, runs, hruns, hmem⟩ := run?_eq_some hturn.thread
  exact (h.staffed.perm_order hruns hmem).nodup_iff.2 (h.consistent.represents.wellFormed.nodup _)

theorem CycleTurn.mem_order_iff : id ∈ run.order ↔ g.subgraphOf id = some s := by
  obtain ⟨rfl, runs, hruns, hmem⟩ := run?_eq_some hturn.thread
  exact h.staffed.mem_order_iff h.consistent.represents.wellFormed hruns hmem

include hisolated

/-- A thread that has caught up is about to reset its nodes. -/
theorem CycleTurn.awaits : g.Awaits (g.partition.edges s) own .reset (g.threadName s)
    (Processes (g.usesOf own) (g.threadName s)) run.order (g.caughtUp run) where
  queueOf := by
    funext id
    rw [queueOf, role?_caughtUp, queueOf]
  ready id hid := by
    have hp := h.consistent.represents.wellFormed
    have hs := h.staffed.survives_of_run? hp hturn.thread
    have hmem := (mem_nodes_iff hp hs).2 ((hturn.mem_order_iff h).1 hid)
    exact (ready_of_mem_nodes h.consistent h.records h.wired (hisolated.sharesNothing hp hs) hmem)
      |>.congr (sourceOf_caughtUp g run) (role?_caughtUp g run id)

end CycleTurn

/-- Whether a node offers items to a queue, or takes them from it: the queue is its own, or it was
put in for that. -/
def Attends (g : Graph σ ω) (own : NodeId → QueueId → Prop) (role : Role σ) (queue : QueueId)
    (id : NodeId) : Prop :=
  own id queue ∨ g.role? id = some role

/-- What a turn uses of queues is used by nodes of its subgraph. -/
theorem exists_of_mem_movedBy (h : g.Built t) (hisolated : g.Isolated own) {tr : Transfer}
    (htr : tr ∈ g.movedBy s) : ∃ id, g.subgraphOf id = some s ∧ (own id tr.queue ∨
      g.role? id = some (.writer tr.queue) ∧ tr.isOffer = true ∨
        g.role? id = some (.reader tr.queue) ∧ tr.isOffer = false) := by
  have hp := h.consistent.represents.wellFormed
  cases hexecutes : g.executes s with
  | false =>
    rw [(rests_of_not_executes hp hexecutes).1] at htr
    cases htr
  | true =>
    obtain ⟨run, hturn⟩ := exists_cycleTurn hp hexecutes
    have hnodup := hturn.nodup_order h
    have hawaits := hturn.awaits h hisolated
    have hsubgraph := (run?_eq_some hturn.thread).1
    have hthread : (g.caughtUp run).threadName run.subgraph = g.threadName s := by
      rw [threadName_caughtUp, hsubgraph]
    rw [hturn.moved, callsCycle, transfersIn_append, hthread] at htr
    rcases List.mem_append.1 htr with hreset | hprocess
    · obtain ⟨id, hid, hown | ⟨hphase, -⟩⟩ := hawaits.uses_transfers hnodup tr hreset
      · exact ⟨id, (hturn.mem_order_iff h).1 hid, .inl hown⟩
      · cases hphase
    · cases hreset : visitAll? .reset (g.threadName s) run.order (g.caughtUp run) with
      | none =>
        rw [hreset] at hprocess
        cases hprocess
      | some reset =>
        rw [hreset, Option.elim_some] at hprocess
        obtain ⟨id, hid, huses⟩ :=
          (hawaits.reset hnodup hreset).uses_transfers hnodup tr hprocess
        refine ⟨id, (hturn.mem_order_iff h).1 hid, huses.imp_right fun hends ↦ ?_⟩
        have hsteps := steps_visitAll? hreset
        rw [role?_steps_iff hsteps rfl, role?_steps_iff hsteps rfl, role?_caughtUp] at hends
        exact hends.2

/-- A turn gets nothing accepted by a queue that no node of its subgraph offers items to. -/
theorem accepted_movedBy_eq_nil (h : g.Built t) (hisolated : g.Isolated own)
    (hnone : ∀ id, g.subgraphOf id = some s → ¬ g.Attends own (.writer queue) queue id) :
    Transfer.accepted queue (g.movedBy s) = [] := by
  refine accepted_eq_nil_of_take fun tr htr hqueue ↦ ?_
  obtain ⟨id, hid, huses⟩ := exists_of_mem_movedBy h hisolated htr
  rw [hqueue] at huses
  rcases huses with hown | ⟨hwriter, -⟩ | ⟨-, htake⟩
  · exact absurd (.inl hown) (hnone id hid)
  · exact absurd (.inr hwriter) (hnone id hid)
  · exact htake

/-- A turn takes nothing from a queue that no node of its subgraph takes items from. -/
theorem taken_movedBy_eq_nil (h : g.Built t) (hisolated : g.Isolated own)
    (hnone : ∀ id, g.subgraphOf id = some s → ¬ g.Attends own (.reader queue) queue id) :
    taken queue (g.movedBy s) = [] := by
  refine taken_eq_nil_of_offer fun tr htr hqueue ↦ ?_
  obtain ⟨id, hid, huses⟩ := exists_of_mem_movedBy h hisolated htr
  rw [hqueue] at huses
  rcases huses with hown | ⟨-, hoffer⟩ | ⟨hreader, -⟩
  · exact absurd (.inl hown) (hnone id hid)
  · exact hoffer
  · exact absurd (.inr hreader) (hnone id hid)

omit [Behaviour σ ω] in
/-- No two nodes were put in for the same end of a queue. -/
theorem Spanned.eq_of_role? (h : g.Spanned t) (hg : g.Consistent t) (hidden : role.isHidden = true)
    (hid : g.role? id = some role) (hother : g.role? other = some role) : id = other := by
  have hsame {b b' : Bridge} (hb : b ∈ t.bridges) (hb' : b' ∈ t.bridges)
      (hqueue : b.queue = b'.queue) : b = b' :=
    List.inj_on_of_nodup_map hg.nodup_queues hb hb' hqueue
  obtain ⟨b, hb, hend⟩ := h.of_role? hid hidden
  obtain ⟨b', hb', hend'⟩ := h.of_role? hother hidden
  rcases hend with ⟨rfl, hrole⟩ | ⟨rfl, hrole⟩
  · rcases hend' with ⟨rfl, hrole'⟩ | ⟨-, hrole'⟩
    · rw [hsame hb hb' (Role.writer.inj (hrole.symm.trans hrole'))]
    · cases hrole.symm.trans hrole'
  · rcases hend' with ⟨-, hrole'⟩ | ⟨rfl, hrole'⟩
    · cases hrole.symm.trans hrole'
    · rw [hsame hb hb' (Role.reader.inj (hrole.symm.trans hrole'))]

/-- No two nodes attend the same end of a queue. -/
theorem Isolated.eq_of_attends (h : g.Isolated own) (hbuilt : g.Built t)
    (hqueue : role.queue? = some queue) (hid : g.Attends own role queue id)
    (hother : g.Attends own role queue other) : id = other := by
  have hqueueOf {id : NodeId} (hrole : g.role? id = some role) : g.queueOf id = some queue := by
    rw [queueOf, hrole, Option.bind_some, hqueue]
  rcases hid with hown | hrole
  · rcases hother with hown' | hrole'
    · exact h.apart _ _ queue hown hown'
    · exact absurd (hqueueOf hrole') (h.adapters _ _ queue hown)
  · rcases hother with hown' | hrole'
    · exact absurd (hqueueOf hrole) (h.adapters _ _ queue hown')
    · refine hbuilt.spanned.eq_of_role? hbuilt.consistent ?_ hrole hrole'
      cases role with
      | custom state => cases hqueue
      | writer queue | reader queue => rfl

/-- The nodes that attend an end of a queue belong to one subgraph at most. -/
theorem Isolated.exists_home (h : g.Isolated own) (hbuilt : g.Built t)
    (hqueue : role.queue? = some queue) : ∃ p, ∀ a ≠ p, ∀ id, g.subgraphOf id = some a →
      ¬ g.Attends own role queue id := by
  by_cases hsome : ∃ p id, g.subgraphOf id = some p ∧ g.Attends own role queue id
  · obtain ⟨p, id, hid, hattends⟩ := hsome
    refine ⟨p, fun a hne other hother hattends' ↦ hne ?_⟩
    obtain rfl := h.eq_of_attends hbuilt hqueue hattends hattends'
    exact Option.some.inj (hother.symm.trans hid)
  · exact ⟨⟨0⟩, fun a _ id hid hattends ↦ hsome ⟨a, id, hid, hattends⟩⟩

/-! ## Turns of other threads -/

/-- Nobody else touches the nodes of a subgraph and the queues that these use alone. -/
theorem agree_turn (h : g.Built t) (hisolated : g.Isolated own)
    (hs : g.partition.Survives s.index) (hne : a ≠ s) :
    Agree (g.partition.nodes s) own g (g.turn a) := by
  have hp := h.consistent.represents.wellFormed
  have hkept : Agree (g.partition.nodes s) own g g := .refl _ _ g
  cases hrun : g.run? a with
  | none => rwa [turn, Operation.apply, hrun]
  | some run =>
    rw [turn_eq hrun]
    cases halive : run.alive with
    | false => rwa [iterate, if_pos (by simp [halive])]
    | true =>
      have hsteps := g.steps_iterate halive
      constructor
      case nodes =>
        intro id hid
        have hother : id ∉ run.order := by
          obtain ⟨rfl, runs, hruns, hmem⟩ := run?_eq_some hrun
          rw [h.staffed.mem_order_iff hp hruns hmem, (mem_nodes_iff hp hs).1 hid]
          exact fun heq ↦ hne (Option.some.inj heq).symm
        exact hsteps.slot?_eq hother
      case queues =>
        intro id hid queue hown
        have hlength := length_queues (hsteps.mono fun _ _ ↦ trivial)
        refine (Moves.iterate queue hp run).queue?_eq hlength fun tr htr hqueue ↦ ?_
        rw [← movedBy_eq hrun] at htr
        obtain ⟨other, hother, huses⟩ := exists_of_mem_movedBy h hisolated htr
        have hqueueOf : g.queueOf other ≠ some queue := hisolated.adapters id other queue hown
        rw [hqueue] at huses
        rcases huses with hown' | ⟨hrole, -⟩ | ⟨hrole, -⟩
        · obtain rfl := hisolated.apart id other queue hown hown'
          rw [(mem_nodes_iff hp hs).1 hid] at hother
          exact hne (Option.some.inj hother).symm
        · exact hqueueOf (by rw [queueOf, hrole]; rfl)
        · exact hqueueOf (by rw [queueOf, hrole]; rfl)

theorem waiting_turn (g : Graph σ ω) (a : SubgraphId) {i : Nat} (hne : i ≠ a.index) :
    (g.turn a).partition.waiting i = g.partition.waiting i := by
  cases hrun : g.run? a with
  | none => rw [turn, Operation.apply, hrun, Option.elim_none]
  | some run =>
    rw [turn_eq hrun, partition_iterate]
    split
    · rw [Partition.waiting_receive, (run?_eq_some hrun).1, if_neg hne]
    · rfl

omit [Behaviour σ ω] in
theorem Agree.attempt (h : Agree nodes own g x) (d : Delivery) :
    Agree nodes own (g.attempt d) (x.attempt d) where
  nodes id hid := by rw [slot?_attempt, slot?_attempt, h.nodes id hid]
  queues := h.queues

omit [Behaviour σ ω] in
/-- A thread sets the same controls if the same waits for its subgraph. -/
theorem Agree.caughtUp (h : Agree nodes own g x) (horder : ∀ id ∈ run.order, id ∈ nodes)
    (hwaiting : x.partition.waiting run.subgraph.index = g.partition.waiting run.subgraph.index) :
    Agree nodes own (g.caughtUp run) (x.caughtUp run) := by
  have hattempts : x.attempts run (g.partition.waiting run.subgraph.index) =
      g.attempts run (g.partition.waiting run.subgraph.index) := by
    refine List.filter_congr fun d _ ↦ decide_eq_decide.2 (and_congr_right fun hd ↦ ?_)
    rw [h.nodes _ (horder _ hd)]
  have hfold (deliveries : List Delivery) {g x : Graph σ ω} (h : Agree nodes own g x) :
      Agree nodes own (deliveries.foldl Graph.attempt g) (deliveries.foldl Graph.attempt x) := by
    induction deliveries generalizing g x with
    | nil => exact h
    | cons d rest ih => exact ih (h.attempt d)
  unfold Graph.caughtUp
  rw [hwaiting, hattempts]
  exact hfold _ ⟨h.nodes, h.queues⟩

omit [Behaviour σ ω] in
theorem agree_caughtUp_of_waiting (nodes : List NodeId) (own : NodeId → QueueId → Prop)
    (hwaiting : g.partition.waiting run.subgraph.index = []) :
    Agree nodes own g (g.caughtUp run) := by
  unfold caughtUp
  rw [hwaiting]
  exact ⟨fun _ _ ↦ rfl, fun _ _ _ _ ↦ rfl⟩

omit [Behaviour σ ω] in
theorem waiting_caughtUp (g : Graph σ ω) (run : Run) :
    (g.caughtUp run).partition.waiting run.subgraph.index = [] := by
  rw [(g.works_caughtUp run).partition, Partition.waiting_receive, if_pos rfl]

omit [Behaviour σ ω] in
theorem caughtUp_congr (h : duty run' = duty run) (g : Graph σ ω) :
    g.caughtUp run' = g.caughtUp run := by
  obtain ⟨subgraph, order, alive⟩ := run
  obtain ⟨subgraph', order', alive'⟩ := run'
  obtain ⟨rfl, rfl⟩ := Prod.mk.inj h
  rfl

/-- Between its cycles a thread catches up to the same, whatever turns are taken. -/
theorem agree_caughtUp_turn (h : g.Built t) (hisolated : g.Isolated own)
    (hs : g.partition.Survives run.subgraph.index)
    (horder : ∀ id ∈ run.order, id ∈ g.partition.nodes run.subgraph)
    (hduty : ∀ run', g.run? run.subgraph = some run' → duty run' = duty run)
    (hrests : a = run.subgraph → g.executes run.subgraph = false) :
    Agree (g.partition.nodes run.subgraph) own (g.caughtUp run) ((g.turn a).caughtUp run) := by
  by_cases hself : a = run.subgraph
  · subst hself
    rcases (rests_of_not_executes h.consistent.represents.wellFormed (hrests rfl)).2 with
      hsame | ⟨run', hrun', -, hturn⟩
    · rw [hsame]
      exact .refl _ _ _
    · rw [hturn, caughtUp_congr (hduty run' hrun')]
      exact agree_caughtUp_of_waiting _ _ (waiting_caughtUp g run)
  · refine (agree_turn h hisolated hs hself).caughtUp horder (waiting_turn g a fun heq ↦ ?_)
    exact hself (congrArg SubgraphId.mk heq.symm)

/-- A turn in which a thread does the same in two graphs. -/
structure SameTurn (nodes : List NodeId) (own : NodeId → QueueId → Prop) (s : SubgraphId)
    (x y : Graph σ ω) : Prop where
  kind : y.kindOf s = x.kindOf s
  agree : Agree nodes own (x.turn s) (y.turn s)
  items : SameItems (x.movedBy s) (y.movedBy s)

omit [Behaviour σ ω] in
theorem Kin.queueOf (h : x.Kin y) : y.queueOf = x.queueOf := by
  funext id
  rw [queueOf_eq_seen, h.adapters, queueOf_eq_seen]

/-- A thread executes the same cycle in two graphs that agree when it has caught up, if the oldest
items for its readers are the same. -/
theorem CycleTurn.sameTurn (hkin : x.Kin y) (hx : x.Built t) (hy : y.Built t)
    (hisolated : x.Isolated own) (hisolated' : y.Isolated own) (hturn : x.CycleTurn s run)
    (hturn' : y.CycleTurn s run) (hkept : NoneRefused (x.movedBy s))
    (hkept' : NoneRefused (y.movedBy s))
    (hagree : Agree (x.partition.nodes s) own (x.caughtUp run) (y.caughtUp run))
    (hheads : ∀ id, x.subgraphOf id = some s → ∀ queue, x.role? id = some (.reader queue) →
      y.oldest queue = x.oldest queue) : SameTurn (x.partition.nodes s) own s x y := by
  have hp := hx.consistent.represents.wellFormed
  have hs := hx.staffed.survives_of_run? hp hturn.thread
  have hawaits : x.Awaits (x.partition.edges s) own .reset (x.threadName s)
      (Processes (x.usesOf own) (x.threadName s)) run.order (y.caughtUp run) := by
    have hawaits := hturn'.awaits hy hisolated'
    rw [hkin.partition.edges_eq hp.toForest, hkin.threadName, usesOf_congr hkin.queueOf] at hawaits
    refine ⟨hawaits.queueOf.trans hkin.queueOf, fun id hid ↦ ?_⟩
    have hready := hawaits.ready id hid
    rwa [usesOf_congr hkin.queueOf] at hready
  obtain rfl := (run?_eq_some hturn.thread).1
  have hname : (x.caughtUp run).threadName run.subgraph = x.threadName run.subgraph :=
    threadName_caughtUp x run _
  have hname' : (y.caughtUp run).threadName run.subgraph =
      (x.caughtUp run).threadName run.subgraph := by
    rw [threadName_caughtUp, hkin.threadName, hname]
  have hcycles : CyclesMatch (x.partition.nodes run.subgraph) own run (x.caughtUp run)
      (y.caughtUp run) := by
    refine hagree.cycle (hx.layout hisolated hs) (fun id hid ↦ ?_) (hturn.nodup_order hx) hname'
      (hname ▸ hturn.awaits hx hisolated) (hname ▸ hawaits) fun id hid queue hrole ↦ ?_
    · exact (mem_nodes_iff hp hs).2 ((hturn.mem_order_iff hx).1 hid)
    · rw [role?_caughtUp] at hrole
      simp only [oldest, queue?, queues_caughtUp]
      exact hheads id ((hturn.mem_order_iff hx).1 hid) queue hrole
  constructor
  case kind => rw [hturn'.kind, hturn.kind, hcycles.alive]
  case agree =>
    constructor
    case nodes =>
      intro id hid
      rw [slot?, hturn'.nodes, slot?, hturn.nodes]
      exact hcycles.agree.nodes id hid
    case queues =>
      intro id hid queue hown
      rw [queue?, hturn'.queues, queue?, hturn.queues]
      exact hcycles.agree.queues id hid queue hown
  case items =>
    rw [hturn.moved] at hkept
    rw [hturn'.moved] at hkept'
    rw [hturn.moved, hturn'.moved]
    exact hcycles.items hkept hkept'

end SignalFlow.Graph
