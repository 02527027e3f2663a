import SignalFlow.Proofs.Graph.Delivering
import SignalFlow.Proofs.Graph.Ports

/-!
# The steps of threads

A thread calls nodes and attempts to set controls, all of them its own, and it may die. What each
of these steps keeps is kept by iterations, by the calls at a start and by those at a stop. So the
nodes of other threads stay as they are, and ports keep their kinds and types.
-/

namespace SignalFlow.Graph

open Relation

variable {σ ω : Type} [Behaviour σ ω] {g g' g'' : Graph σ ω} {own own' : NodeId → Prop}

/-- What comes of the steps of a call: how it ends and the role behind, the scene behind, and the
notices. -/
def performed (g : Graph σ ω) (phase : Phase) (thread : Option String) (n : Node σ ω) :
    (Except Stop Unit × Role σ) × Scene PortRef ω × List (Notice ω) :=
  (n.role.perform phase thread).run g.published ⟨n.ports, g.queues⟩

/-- The graph with what a call left of a node and of the queues. -/
def called (g : Graph σ ω) (id : NodeId) (scene : Scene PortRef ω) (role : Role σ) :
    Graph σ ω :=
  { g.modifyNode id fun _ ↦ ⟨scene.ports, role⟩ with queues := scene.queues }

omit [Behaviour σ ω] in
theorem slot?_called (g : Graph σ ω) (id other : NodeId) (scene : Scene PortRef ω)
    (role : Role σ) : (g.called id scene role).slot? other = if id = other then
      (g.slot? other).map fun slot ↦ { slot with node := ⟨scene.ports, role⟩ }
    else g.slot? other :=
  slot?_modifyNode g id other fun _ ↦ ⟨scene.ports, role⟩

/-- A call of a node replaces the node and the queues by what its steps leave. -/
theorem call_eq {id : NodeId} {slot : Slot σ ω} (hslot : g.slot? id = some slot) (phase : Phase)
    (thread : Option String) : g.call phase thread id =
      (g.called id (g.performed phase thread slot.node).2.1
          (g.performed phase thread slot.node).1.2,
        (g.performed phase thread slot.node).1.1, (g.performed phase thread slot.node).2.2) := by
  unfold call
  rw [hslot]
  rfl

theorem call_eq_self {id : NodeId} (hslot : g.slot? id = none) (phase : Phase)
    (thread : Option String) : g.call phase thread id = (g, .ok (), []) := by
  unfold call
  rw [hslot]

/-- One step of a thread to which some nodes belong. -/
inductive Step (own : NodeId → Prop) : Graph σ ω → Graph σ ω → Prop
  | call (g : Graph σ ω) (phase : Phase) (thread : Option String) {id : NodeId} (h : own id) :
      Step own g (g.call phase thread id).1
  | attempt (g : Graph σ ω) {d : Delivery} (h : own d.binding.node) : Step own g (g.attempt d)
  | bury (g : Graph σ ω) (s : SubgraphId) : Step own g (g.bury s)

/-- Any number of steps of threads to which some nodes belong. -/
abbrev Steps (own : NodeId → Prop) : Graph σ ω → Graph σ ω → Prop :=
  ReflTransGen (Step own)

theorem Steps.mono (h : Steps own g g') (hown : ∀ id, own id → own' id) : Steps own' g g' := by
  refine ReflTransGen.mono (fun _ _ hstep ↦ ?_) _ _ h
  cases hstep with
  | call phase thread hid => exact .call _ phase thread (hown _ hid)
  | attempt hd => exact .attempt _ (hown _ hd)
  | bury s => exact .bury _ s

theorem steps_callAll (phase : Phase) (thread : String) {ids : List NodeId}
    (hids : ∀ id ∈ ids, own id) (g : Graph σ ω) :
    Steps own g (callAll phase thread ids g).1 := by
  induction ids generalizing g with
  | nil => exact .refl
  | cons id ids ih =>
    have hcall : Step own g (g.call phase (some thread) id).1 :=
      .call g phase (some thread) (hids id List.mem_cons_self)
    unfold callAll
    simp only
    split
    · exact .head hcall (ih (fun other hother ↦ hids other (List.mem_cons_of_mem _ hother)) _)
    · exact .single hcall

theorem steps_callRun (phase : Phase) (g : Graph σ ω) {run : Run}
    (hrun : ∀ id ∈ run.order, own id) : Steps own g (callRun phase g run).1 := by
  have hall := steps_callAll phase (g.threadName run.subgraph) hrun g
  unfold callRun
  simp only
  split
  · exact hall
  · exact hall.tail (.bury _ _)

theorem steps_eachRun {act : Graph σ ω → Run → Graph σ ω × List (Report ω)} {runs : List Run}
    (hact : ∀ run ∈ runs, ∀ g : Graph σ ω, Steps own g (act g run).1) (g : Graph σ ω) :
    Steps own g (eachRun act runs g).1 := by
  induction runs generalizing g with
  | nil => exact .refl
  | cons run runs ih =>
    obtain ⟨hrun, hruns⟩ := List.forall_mem_cons.1 hact
    exact (hrun g).trans (ih hruns _)

theorem steps_cycle (g : Graph σ ω) (run : Run) :
    Steps (· ∈ run.order) g (g.cycle run).1 := by
  have hreset : Steps (· ∈ run.order) g
      (callAll .reset (g.threadName run.subgraph) run.order g).1 :=
    steps_callAll .reset _ (fun _ hid ↦ hid) g
  unfold cycle
  simp only
  split
  · exact hreset.trans (steps_callAll .process _ (fun _ hid ↦ hid) _)
  · exact hreset

theorem steps_advance (g : Graph σ ω) (run : Run) :
    Steps (· ∈ run.order) g (g.advance run).1 := by
  unfold advance
  split
  · exact .refl
  · split
    · exact .refl
    · simp only
      split
      · exact steps_cycle g run
      · exact (steps_cycle g run).tail (.bury _ _)

theorem steps_caughtUp (g : Graph σ ω) (run : Run) : Steps (· ∈ run.order)
    { g with partition := (g.partition.receive run.subgraph).2 } (g.caughtUp run) := by
  have hattempts : ∀ d ∈ g.attempts run (g.partition.waiting run.subgraph.index),
      d.binding.node ∈ run.order := by
    intro d hd
    exact (of_decide_eq_true (List.mem_filter.1 hd).2).1
  unfold caughtUp
  revert hattempts
  generalize ({ g with partition := (g.partition.receive run.subgraph).2 } : Graph σ ω) = received
  induction g.attempts run (g.partition.waiting run.subgraph.index) generalizing received with
  | nil => exact fun _ ↦ .refl
  | cons d rest ih =>
    intro hattempts
    refine .head (.attempt received (hattempts d List.mem_cons_self)) ?_
    exact ih _ fun later hlater ↦ hattempts later (List.mem_cons_of_mem _ hlater)

theorem steps_iterate {run : Run} (halive : run.alive = true) : Steps (· ∈ run.order)
    { g with partition := (g.partition.receive run.subgraph).2 } (g.iterate run).1 := by
  rw [fst_iterate halive]
  exact (steps_caughtUp g run).trans (steps_advance _ run)

theorem steps_initialised (g : Graph σ ω) {runs : List Run}
    (hown : ∀ run ∈ runs, ∀ id ∈ run.order, own id) :
    Steps own (g.manned runs) (g.initialised runs) :=
  steps_eachRun (fun run hrun g ↦ steps_callRun .init g (hown run hrun)) _

/-- The graph in which the nodes of living threads have been destroyed. -/
def destroyed (g : Graph σ ω) : Graph σ ω :=
  (eachRun (fun g run ↦ if run.alive then callRun .destroy g run else (g, []))
    (g.runs.getD []) g).1

theorem steps_destroyed (g : Graph σ ω)
    (hown : ∀ run ∈ g.runs.getD [], ∀ id ∈ run.order, own id) : Steps own g g.destroyed := by
  refine steps_eachRun (fun run hrun g ↦ ?_) g
  split
  · exact steps_callRun .destroy g (hown run hrun)
  · exact .refl

/-- A stop calls nodes, brings those of living threads home and ends the runs. -/
theorem exists_steps_stop (g : Graph σ ω) : ∃ g' ids, Steps (fun _ ↦ True) g g' ∧
    g.stop.1 = { g'.setAvailable ids true with runs := none } :=
  ⟨g.destroyed, _, g.steps_destroyed fun _ _ _ _ ↦ trivial, rfl⟩

theorem slot?_call (g : Graph σ ω) (phase : Phase) (thread : Option String) {id other : NodeId}
    (h : id ≠ other) : (g.call phase thread id).1.slot? other = g.slot? other := by
  cases hslot : g.slot? id with
  | none => rw [call_eq_self hslot]
  | some slot =>
    rw [call_eq hslot, slot?_called, if_neg h]

theorem Step.slot?_eq (h : Step own g g') {id : NodeId} (hid : ¬ own id) :
    g'.slot? id = g.slot? id := by
  cases h with
  | call phase thread hown => exact slot?_call g phase thread fun heq ↦ hid (heq ▸ hown)
  | attempt hown =>
    refine (slot?_modifyNode g _ id _).trans (if_neg fun heq ↦ hid ?_)
    exact heq ▸ hown
  | bury s => rfl

/-- Threads leave the nodes of other threads alone. -/
theorem Steps.slot?_eq (h : Steps own g g') {id : NodeId} (hid : ¬ own id) :
    g'.slot? id = g.slot? id := by
  induction h with
  | refl => rfl
  | tail _ hstep ih => exact (hstep.slot?_eq hid).trans ih

/-- Threads change neither the types nor the capacities of queues. -/
theorem Step.kinds_eq (h : Step own g g') : kinds g'.queues = kinds g.queues := by
  cases h with
  | @call phase thread id hown =>
    cases hslot : g.slot? id with
    | none => rw [call_eq_self hslot]
    | some slot =>
      rw [call_eq hslot]
      exact Act.kinds_run g.published _ ⟨slot.node.ports, g.queues⟩
  | attempt hown => rfl
  | bury s => rfl

theorem Steps.kinds_eq (h : Steps own g g') : kinds g'.queues = kinds g.queues := by
  induction h with
  | refl => rfl
  | tail _ hstep ih => exact hstep.kinds_eq.trans ih

omit [Behaviour σ ω] in
theorem queues_setAvailable (g : Graph σ ω) (ids : List NodeId) (available : Bool) :
    (g.setAvailable ids available).queues = g.queues := by
  induction ids generalizing g with
  | nil => rfl
  | cons id ids ih => exact ih _

/-! ## What lasts -/

/-- What is seen of the node at each place. -/
def seen {β : Type} (see : Node σ ω → β) (g : Graph σ ω) (id : NodeId) : Option β :=
  (g.slot? id).map fun slot ↦ see slot.node

/-- Whether neither calls nor values from outside change what is seen of a node. -/
structure Lasts {β : Type} (see : Node σ ω → β) : Prop where
  performed : ∀ (g : Graph σ ω) (phase : Phase) (thread : Option String) (n : Node σ ω),
    see ⟨(g.performed phase thread n).2.1.ports, (g.performed phase thread n).1.2⟩ = see n
  applied : ∀ (b : Binding) (value : Control.Value) (n : Node σ ω),
    see { n with ports := (b.apply n.ports value).1 } = see n

section Lasts

variable {β : Type} {see : Node σ ω → β}

omit [Behaviour σ ω] in
theorem seen_modifySlot (g : Graph σ ω) (id : NodeId) {change : Slot σ ω → Slot σ ω}
    (h : ∀ slot, g.slot? id = some slot → see (change slot).node = see slot.node) :
    seen see { g with slots := g.slots.modify id.index change } = seen see g := by
  funext other
  unfold seen slot?
  rw [List.getElem?_modify]
  cases hslot : g.slots[other.index]? with
  | none => rfl
  | some slot =>
    by_cases hindex : id.index = other.index
    · have hchange := h slot (by rw [slot?, hindex, hslot])
      simp [hindex, hchange]
    · simp [hindex]

omit [Behaviour σ ω] in
theorem seen_setAvailable (see : Node σ ω → β) (g : Graph σ ω) (ids : List NodeId)
    (available : Bool) : seen see (g.setAvailable ids available) = seen see g := by
  induction ids generalizing g with
  | nil => rfl
  | cons id ids ih => exact (ih _).trans (seen_modifySlot g id fun _ _ ↦ rfl)

namespace Lasts

variable (h : Lasts see)

include h

theorem step (hstep : Step own g g') : seen see g' = seen see g := by
  cases hstep with
  | @call phase thread id hown =>
    cases hslot : g.slot? id with
    | none => rw [call_eq_self hslot]
    | some slot =>
      rw [call_eq hslot]
      refine seen_modifySlot g id fun slot' hslot' ↦ ?_
      obtain rfl : slot' = slot := Option.some.inj (hslot'.symm.trans hslot)
      exact h.performed g phase thread slot'.node
  | @attempt d hown => exact seen_modifySlot g _ fun slot _ ↦ h.applied d.binding d.value slot.node
  | bury s => rfl

theorem steps (hsteps : Steps own g g') : seen see g' = seen see g := by
  induction hsteps with
  | refl => rfl
  | tail _ hstep ih => exact (h.step hstep).trans ih

theorem stop (g : Graph σ ω) : seen see g.stop.1 = seen see g := by
  obtain ⟨g', ids, hsteps, hstop⟩ := g.exists_steps_stop
  rw [hstop]
  exact (seen_setAvailable see g' ids true).trans (h.steps hsteps)

theorem initialised (g : Graph σ ω) (runs : List Run) :
    seen see (g.initialised runs) = seen see g := by
  have hsteps : Steps (fun _ ↦ True) (g.manned runs) (g.initialised runs) :=
    g.steps_initialised fun _ _ _ _ ↦ trivial
  exact (h.steps hsteps).trans (seen_setAvailable see g _ false)

theorem start (g : Graph σ ω) (spawner : Spawner) :
    seen see (g.start spawner).1 = seen see g := by
  have hstarts := g.starts spawner
  generalize g.start spawner = result at hstarts ⊢
  cases hstarts with
  | running | unplanned => rfl
  | unnamed => exact seen_setAvailable see g.forwarded _ false
  | stuck | started => exact h.initialised g.forwarded _
  | refused => exact (h.stop _).trans (h.initialised g.forwarded _)

theorem iterate (g : Graph σ ω) (run : Run) : seen see (g.iterate run).1 = seen see g := by
  by_cases halive : run.alive = true
  · have hsteps := h.steps (g.steps_iterate halive)
    exact hsteps
  · rw [Graph.iterate, if_pos (by simpa using halive)]

/-- Besides connections only new nodes and access from outside change what is seen. -/
theorem apply {operation : Operation σ ω} {id : NodeId} (hmade : operation.made g = [])
    (haccess : ∀ ports state, operation = .access id ports state → ∀ slot,
      g.slot? id = some slot →
        see ⟨ports slot.node.ports, changeState state slot.node.role⟩ = see slot.node) :
    (∃ ports state, operation = .add ports state) ∨
      seen see (operation.apply g) id = seen see g id := by
  cases operation with
  | add ports state => exact .inl ⟨ports, state, rfl⟩
  | connect attempt =>
    right
    rcases Operation.connect_cases g attempt with ⟨-, hsame⟩ | ⟨c, hc, -⟩
    · rw [hsame]
    · rw [hmade] at hc
      cases hc
  | bind ref name storage validator =>
    right
    rcases Operation.bind_cases g ref name storage validator with hsame | ⟨-, hbound⟩
    · rw [hsame]
    · rw [hbound]
      rfl
  | unbindAll =>
    right
    rcases Operation.unbindAll_cases g with hsame | ⟨-, hunbound⟩
    · rw [hsame]
    · rw [hunbound]
      rfl
  | call phase node =>
    right
    simp only [Operation.apply]
    split
    · have hstep : Step (fun _ ↦ True) g (g.call phase none node).1 := .call g phase none trivial
      rw [h.step hstep]
    · rfl
  | access node ports state =>
    right
    simp only [Operation.apply]
    split
    · unfold seen
      rw [slot?_modifyNode]
      split
      · next heq =>
        subst heq
        cases hslot : g.slot? node with
        | none => rfl
        | some slot => exact congrArg some (haccess ports state rfl slot hslot)
      · rfl
    · rfl
  | start spawner => exact .inr (congrFun (h.start g spawner) id)
  | iterate subgraph =>
    right
    simp only [Operation.apply]
    cases g.run? subgraph with
    | none => rfl
    | some run => exact congrFun (h.iterate g run) id
  | stop => exact .inr (congrFun (h.stop g) id)
  | addQueue _ _ | changeQueue _ _ | post _ | postThrough _ _ => exact .inr rfl

end Lasts

end Lasts

def shapeOf (g : Graph σ ω) (ref : PortRef) : Option (Frame PortRef) :=
  (g.slot? ref.node).bind fun slot ↦ (shapes slot.node.ports)[ref.port]?

omit [Behaviour σ ω] in
theorem shapeOf_eq_seen (g : Graph σ ω) (ref : PortRef) :
    g.shapeOf ref = (seen (fun n ↦ shapes n.ports) g ref.node).bind (·[ref.port]?) := by
  rw [shapeOf, seen, Option.bind_map]
  rfl

omit [Behaviour σ ω] in
theorem shapeOf_congr (h : seen (fun n ↦ shapes n.ports) g' = seen (fun n ↦ shapes n.ports) g) :
    g'.shapeOf = g.shapeOf := by
  funext ref
  rw [shapeOf_eq_seen, h, shapeOf_eq_seen]

theorem lasts_shapes : Lasts fun n : Node σ ω ↦ shapes n.ports where
  performed g _ _ n :=
    congrArg (List.map Frame.detached) (Act.frames_run g.published _ ⟨n.ports, g.queues⟩)
  applied b value n := congrArg (List.map Frame.detached) (b.frames_apply n.ports value)

end SignalFlow.Graph
