import SignalFlow.Proofs.Graph.Dependence

/-!
# Cycles in two graphs

Nodes of a subgraph that are called one after the other do not take each other's items, since they
use different queues. So what holds of one call holds of all resets and of all calls behind them.
-/

namespace SignalFlow.Graph

open Transfer

variable {σ ω : Type} [Behaviour σ ω] {g g' : Graph σ ω} {phase : Phase} {thread : String}
  {id : NodeId} {ids rest : List NodeId} {own uses : NodeId → QueueId → Prop} {edges : List Edge}
  {post : NodeId → Role σ → Prop} {queue : QueueId} {run : Run} {c : Call σ ω}

theorem role?_steps_iff {owns : NodeId → Prop} {role : Role σ} (h : Steps owns g g')
    (hidden : role.isHidden = true) : g'.role? id = some role ↔ g.role? id = some role := by
  rw [role?_eq_some_iff_seen hidden, role?_eq_some_iff_seen hidden, lasts_adapter.steps h]

/-- Threads keep to the queues that writers and readers were put in for. -/
theorem queueOf_steps {owns : NodeId → Prop} (h : Steps owns g g') : g'.queueOf = g.queueOf := by
  funext id
  rw [queueOf_eq_seen, queueOf_eq_seen, lasts_adapter.steps h]

omit [Behaviour σ ω] in
theorem usesOf_congr (h : g'.queueOf = g.queueOf) (own : NodeId → QueueId → Prop) :
    g'.usesOf own = g.usesOf own := by
  funext id queue
  rw [usesOf, h, usesOf]

omit [Behaviour σ ω] in
/-- A queue that is not used stays as it is. -/
theorem Moves.queue?_eq {ts : List Transfer} (h : Moves queue g ts g')
    (hlength : g'.queues.length = g.queues.length) (hne : ∀ t ∈ ts, t.queue ≠ queue) :
    g'.queue? queue = g.queue? queue := by
  cases hq : g.queue? queue with
  | none =>
    refine List.getElem?_eq_none ?_
    rw [hlength]
    exact List.getElem?_eq_none_iff.1 hq
  | some q => rw [(h q hq).2, foldl_leave_of_ne hne]

/-- What a call uses of queues: those of its node, or the one that the node was put in for, at its
own end and when it is processed. -/
theorem Ready.uses_transfers (h : Ready edges (g.usesOf own) phase thread post id g) :
    ∀ t ∈ g.transfersOf phase (some thread) id, own id t.queue ∨ phase = .process ∧
      (g.role? id = some (.writer t.queue) ∧ t.isOffer = true ∨
        g.role? id = some (.reader t.queue) ∧ t.isOffer = false) := by
  intro t ht
  obtain ⟨slot, hslot, hwithin⟩ := h.within
  have hrole := role?_of_slot? hslot
  rw [transfersOf_of_slot? hslot] at ht
  cases hidden : slot.node.role.isHidden with
  | true =>
    by_cases hphase : phase = .process
    · refine .inr ⟨hphase, ?_⟩
      rw [hrole]
      exact (Role.uses_of_isHidden _ hidden _ _ _ t ht).imp (And.imp_left (congrArg some))
        (And.imp_left (congrArg some))
    · rw [(Role.perform_of_ne_process _ hidden hphase _ _ 0).1] at ht
      cases ht
  | false =>
    refine .inl ((hwithin.uses_transfers _ _ t ht).resolve_right fun hqueue ↦ ?_)
    rw [queueOf, hrole, Option.bind_some] at hqueue
    cases hnode : slot.node.role with
    | custom state =>
      rw [hnode] at hqueue
      cases hqueue
    | writer queue | reader queue =>
      rw [hnode] at hidden
      cases hidden

/-- How the nodes of a subgraph are laid out in a graph: what is read belongs to the subgraph, and
nodes use different queues. -/
structure Layout (g : Graph σ ω) (ids : List NodeId) (edges : List Edge)
    (own : NodeId → QueueId → Prop) : Prop where
  edges : ∀ e ∈ edges, e.1 ∈ ids
  apart : ∀ a ∈ ids, ∀ b ∈ ids, a ≠ b → ∀ queue, g.usesOf own a queue → ¬ g.usesOf own b queue
  adapters : ∀ a ∈ ids, ∀ b ∈ ids, ∀ queue, own a queue → g.queueOf b ≠ some queue

/-- A graph in which some nodes are to be called. -/
structure Awaits (base : Graph σ ω) (edges : List Edge) (own : NodeId → QueueId → Prop)
    (phase : Phase) (thread : String) (post : NodeId → Role σ → Prop) (rest : List NodeId)
    (g : Graph σ ω) : Prop where
  queueOf : g.queueOf = base.queueOf
  ready : ∀ id ∈ rest, Ready edges (base.usesOf own) phase thread post id g

theorem Ready.keep {phase' : Phase} (h : Ready edges uses phase thread post id g)
    (hvisits : visitAll? phase' thread ids g = some g') (hid : id ∉ ids) :
    Ready edges uses phase thread post id g' :=
  h.congr (works_visitAll? hvisits).sourceOf (role?_congr (slot?_visitAll? hvisits hid))

namespace Awaits

variable {base : Graph σ ω}

theorem ready_head (h : base.Awaits edges own phase thread post (id :: rest) g) :
    Ready edges (g.usesOf own) phase thread post id g := by
  rw [usesOf_congr h.queueOf]
  exact h.ready id List.mem_cons_self

theorem tail (h : base.Awaits edges own phase thread post (id :: rest) g)
    (hnodup : (id :: rest).Nodup) :
    base.Awaits edges own phase thread post rest (g.call phase (some thread) id).1 where
  queueOf := by
    have hsteps : Steps (fun _ ↦ True) g (g.call phase (some thread) id).1 :=
      .single (.call g phase (some thread) trivial)
    rw [queueOf_steps hsteps, h.queueOf]
  ready a ha := by
    refine (h.ready a (List.mem_cons_of_mem _ ha)).call phase ?_
    rintro rfl
    exact (List.nodup_cons.1 hnodup).1 ha

/-- Behind a reset of all nodes they are to be processed. -/
theorem reset (h : base.Awaits edges own .reset thread (Processes (base.usesOf own) thread) ids g)
    (hnodup : ids.Nodup) (hreset : visitAll? .reset thread ids g = some g') :
    base.Awaits edges own .process thread (fun _ _ ↦ True) ids g' where
  queueOf := (queueOf_steps (steps_visitAll? hreset)).trans h.queueOf
  ready id hid := by
    obtain ⟨before, behind, rfl⟩ := List.append_of_mem hid
    obtain ⟨-, hrest, hapart⟩ := List.nodup_append.1 hnodup
    rw [visitAll?_append] at hreset
    obtain ⟨between, hbefore, hreset⟩ := Option.bind_eq_some_iff.1 hreset
    obtain ⟨visited, hvisit, hbehind⟩ := Option.bind_eq_some_iff.1 hreset
    rw [visit?_eq] at hvisit
    split at hvisit
    · have hready := (h.ready id hid).keep hbefore
        fun hmem ↦ hapart _ hmem _ List.mem_cons_self rfl
      obtain rfl := Option.some.inj hvisit
      exact hready.reset.keep hbehind (List.nodup_cons.1 hrest).1
    · cases hvisit

/-- When the thread comes to a node, it is ready. -/
theorem of_mem_callsAll (h : base.Awaits edges own phase thread post ids g)
    (hnodup : ids.Nodup) (hc : c ∈ callsAll phase thread ids g) :
    c.node ∈ ids ∧ c.phase = phase ∧ c.thread = some thread ∧
      c.graph.role? c.node = g.role? c.node ∧
      Ready edges (c.graph.usesOf own) phase thread post c.node c.graph := by
  obtain ⟨before, behind, rfl, hbefore, hphase, hthread⟩ := exists_of_mem_callsAll hc
  have hmem : c.node ∈ before ++ c.node :: behind := List.mem_append_right _ List.mem_cons_self
  have hbehind : c.node ∉ before :=
    fun hmem ↦ (List.nodup_append.1 hnodup).2.2 _ hmem _ List.mem_cons_self rfl
  refine ⟨hmem, hphase, hthread, role?_congr (slot?_visitAll? hbefore hbehind), ?_⟩
  rw [usesOf_congr ((queueOf_steps (steps_visitAll? hbefore)).trans h.queueOf)]
  exact (h.ready _ hmem).keep hbefore hbehind

theorem uses_transfers (h : base.Awaits edges own phase thread post ids g) (hnodup : ids.Nodup) :
    ∀ t ∈ transfersIn (callsAll phase thread ids g), ∃ id ∈ ids, own id t.queue ∨
      phase = .process ∧ (g.role? id = some (.writer t.queue) ∧ t.isOffer = true ∨
        g.role? id = some (.reader t.queue) ∧ t.isOffer = false) := by
  intro t ht
  obtain ⟨c, hc, ht⟩ := List.mem_flatMap.1 ht
  obtain ⟨hmem, hphase, hthread, hrole, hready⟩ := h.of_mem_callsAll hnodup hc
  refine ⟨c.node, hmem, ?_⟩
  rw [← hrole]
  rw [Call.transfers, hphase, hthread] at ht
  exact hready.uses_transfers t ht

end Awaits

/-- Calls in a row in two graphs that agree. -/
structure SameCalls (ids : List NodeId) (own : NodeId → QueueId → Prop) (phase : Phase)
    (thread : String) (rest : List NodeId) (g g' : Graph σ ω) : Prop where
  alive : (callAll phase thread rest g').2.2 = (callAll phase thread rest g).2.2
  agree : Agree ids own (callAll phase thread rest g).1 (callAll phase thread rest g').1
  items : NoneRefused (transfersIn (callsAll phase thread rest g)) →
    NoneRefused (transfersIn (callsAll phase thread rest g')) →
      SameItems (transfersIn (callsAll phase thread rest g))
        (transfersIn (callsAll phase thread rest g'))

theorem SameCall.cons (h : SameCall ids own phase thread id g g')
    (hbehind : SameCalls ids own phase thread rest (g.call phase (some thread) id).1
      (g'.call phase (some thread) id).1) : SameCalls ids own phase thread (id :: rest) g g' := by
  have halive := h.alive
  cases hgoes : ((g.call phase (some thread) id).1.reportEnding phase thread id
      (g.call phase (some thread) id).2.1).2 with
  | true =>
    rw [hgoes] at halive
    constructor
    all_goals simp only [callAll, callsAll, hgoes, halive, if_true]
    case alive => exact hbehind.alive
    case agree => exact hbehind.agree
    case items =>
      intro hkept hkept'
      obtain ⟨hfirst, hrest⟩ := NoneRefused.of_append hkept
      obtain ⟨hfirst', hrest'⟩ := NoneRefused.of_append hkept'
      exact (h.items hfirst hfirst').append (hbehind.items hrest hrest')
  | false =>
    rw [hgoes] at halive
    constructor
    all_goals simp only [callAll, callsAll, hgoes, halive, Bool.false_eq_true, if_false]
    case agree => exact h.agree
    case items =>
      simp only [transfersIn, List.flatMap_singleton]
      exact h.items

/-- Nodes of a subgraph that are called in a row do the same in two graphs that agree, if the oldest
items for its readers are the same. -/
theorem Agree.callAll {base : Graph σ ω} (h : Agree ids own g g')
    (hlayout : base.Layout ids edges own) (hrest : ∀ id ∈ rest, id ∈ ids) (hnodup : rest.Nodup)
    (hg : base.Awaits edges own phase thread post rest g)
    (hg' : base.Awaits edges own phase thread post rest g')
    (hheads : ∀ id ∈ rest, ∀ queue, g.role? id = some (.reader queue) →
      g'.oldest queue = g.oldest queue) : SameCalls ids own phase thread rest g g' := by
  induction rest generalizing g g' with
  | nil => exact ⟨rfl, h, fun _ _ ↦ .of_eq rfl⟩
  | cons id rest ih =>
    obtain ⟨hid, hrest⟩ := List.forall_mem_cons.1 hrest
    have hcall : SameCall ids own phase thread id g g' := by
      refine h.call hid hlayout.edges hg.ready_head (fun a ha queue hown ↦ ?_)
        (hheads id List.mem_cons_self)
      rw [hg.queueOf]
      exact hlayout.adapters a ha id hid queue hown
    -- The call leaves the queues alone that the other readers take from.
    have hheads' : ∀ a ∈ rest, ∀ queue,
        (g.call phase (some thread) id).1.role? a = some (.reader queue) →
        (g'.call phase (some thread) id).1.oldest queue =
          (g.call phase (some thread) id).1.oldest queue := by
      intro a ha queue hrole
      have hne : id ≠ a := by
        rintro rfl
        exact (List.nodup_cons.1 hnodup).1 ha
      rw [role?_congr (slot?_call g phase (some thread) hne)] at hrole
      have huses : base.usesOf own a queue := by
        refine .inr ?_
        rw [← hg.queueOf, Graph.queueOf, hrole]
        rfl
      have hunused : ¬ base.usesOf own id queue :=
        hlayout.apart a (hrest a ha) id hid hne.symm queue huses
      have hready := hg.ready id List.mem_cons_self
      have hready' := hg'.ready id List.mem_cons_self
      rw [oldest_congr (hready.queues_call hunused), oldest_congr (hready'.queues_call hunused)]
      exact hheads a (List.mem_cons_of_mem _ ha) queue hrole
    have hbehind := ih hcall.agree hrest (List.nodup_cons.1 hnodup).2 (hg.tail hnodup)
      (hg'.tail hnodup) hheads'
    exact hcall.cons hbehind

/-- A cycle in two graphs that agree. -/
structure CyclesMatch (ids : List NodeId) (own : NodeId → QueueId → Prop) (run : Run)
    (g g' : Graph σ ω) : Prop where
  alive : (g'.cycle run).2.2 = (g.cycle run).2.2
  agree : Agree ids own (g.cycle run).1 (g'.cycle run).1
  items : NoneRefused (transfersIn (g.callsCycle run)) →
    NoneRefused (transfersIn (g'.callsCycle run)) →
      SameItems (transfersIn (g.callsCycle run)) (transfersIn (g'.callsCycle run))

theorem Awaits.oldest_reset {base : Graph σ ω}
    (h : base.Awaits edges own .reset thread (Processes (base.usesOf own) thread) ids g)
    (hnodup : ids.Nodup) (hadapters : ∀ a ∈ ids, ¬ own a queue) :
    (callAll .reset thread ids g).1.oldest queue = g.oldest queue := by
  have hsteps : Steps (fun _ ↦ True) g (callAll .reset thread ids g).1 :=
    steps_callAll .reset thread (fun _ _ ↦ trivial) g
  refine oldest_congr ((Moves.callAll queue .reset thread ids g).queue?_eq
    (length_queues hsteps) fun t ht heq ↦ ?_)
  obtain ⟨id, hid, hown | ⟨hphase, -⟩⟩ := h.uses_transfers hnodup t ht
  · exact hadapters id hid (heq ▸ hown)
  · cases hphase

/-- A cycle does the same with the nodes of a subgraph and moves the same items in two graphs that
agree, if the oldest items for its readers are the same. -/
theorem Agree.cycle {base : Graph σ ω} (h : Agree ids own g g')
    (hlayout : base.Layout ids edges own) (horder : ∀ id ∈ run.order, id ∈ ids)
    (hnodup : run.order.Nodup)
    (hthread : g'.threadName run.subgraph = g.threadName run.subgraph)
    (hg : base.Awaits edges own .reset (g.threadName run.subgraph)
      (Processes (base.usesOf own) (g.threadName run.subgraph)) run.order g)
    (hg' : base.Awaits edges own .reset (g.threadName run.subgraph)
      (Processes (base.usesOf own) (g.threadName run.subgraph)) run.order g')
    (hheads : ∀ id ∈ run.order, ∀ queue, g.role? id = some (.reader queue) →
      g'.oldest queue = g.oldest queue) : CyclesMatch ids own run g g' := by
  have hresets := h.callAll hlayout horder hnodup hg hg' hheads
  have hdead := hresets.alive
  cases hend : (Graph.callAll .reset (g.threadName run.subgraph) run.order g).2.2 with
  | false =>
    rw [hend] at hdead
    constructor
    all_goals simp only [Graph.cycle, callsCycle, visitAll?_eq, hthread, hend, hdead,
      Bool.false_eq_true, if_false, Option.elim_none, List.append_nil]
    case agree => exact hresets.agree
    case items => exact hresets.items
  | true =>
    rw [hend] at hdead
    have hreset : visitAll? .reset (g.threadName run.subgraph) run.order g =
        some (Graph.callAll .reset (g.threadName run.subgraph) run.order g).1 := by
      rw [visitAll?_eq, hend, if_pos rfl]
    have hreset' : visitAll? .reset (g.threadName run.subgraph) run.order g' =
        some (Graph.callAll .reset (g.threadName run.subgraph) run.order g').1 := by
      rw [visitAll?_eq, hdead, if_pos rfl]
    have hprocess := hresets.agree.callAll hlayout horder hnodup (hg.reset hnodup hreset)
      (hg'.reset hnodup hreset') fun id hid queue hrole ↦ ?_
    · constructor
      all_goals simp only [Graph.cycle, callsCycle, hreset, hreset', hthread, hend, hdead,
        if_true, Option.elim_some]
      case alive => exact hprocess.alive
      case agree => exact hprocess.agree
      case items =>
        rw [transfersIn_append, transfersIn_append]
        intro hkept hkept'
        obtain ⟨hfirst, hsecond⟩ := hkept.of_append
        obtain ⟨hfirst', hsecond'⟩ := hkept'.of_append
        exact (hresets.items hfirst hfirst').append (hprocess.items hsecond hsecond')
    · rw [role?_steps_iff (steps_visitAll? hreset) rfl] at hrole
      have hqueue : base.queueOf id = some queue := by
        rw [← hg.queueOf, Graph.queueOf, hrole]
        rfl
      have hadapters : ∀ a ∈ run.order, ¬ own a queue :=
        fun a ha hown ↦ hlayout.adapters a (horder a ha) id (horder id hid) queue hown hqueue
      rw [hg.oldest_reset hnodup hadapters, hg'.oldest_reset hnodup hadapters]
      exact hheads id hid queue hrole

end SignalFlow.Graph
