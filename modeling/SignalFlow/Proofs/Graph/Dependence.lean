import SignalFlow.Proofs.Graph.Couplings
import SignalFlow.Proofs.Graph.Reordering

/-!
# What a cycle depends on

Nodes share nothing but ports and the queues of connections. A writer does not notice what its
queue holds unless an item is refused, and a reader notices the oldest item only. So in two graphs
with the same nodes in a subgraph and the same oldest item in the queue that feeds it, a cycle does
the same with the nodes, and moves the same items.
-/

namespace SignalFlow

namespace Transfer

variable {queue : QueueId} {ts ts' us us' : List Transfer}

/-- Whether no item is refused. -/
def NoneRefused (ts : List Transfer) : Prop :=
  ∀ t ∈ ts, t.isRefused = false

instance (ts : List Transfer) : Decidable (NoneRefused ts) :=
  inferInstanceAs (Decidable (∀ t ∈ ts, t.isRefused = false))

/-- Whether the same items are accepted by queues and taken from them. -/
structure SameItems (ts ts' : List Transfer) : Prop where
  accepted : ∀ queue, accepted queue ts' = accepted queue ts
  taken : ∀ queue, taken queue ts' = taken queue ts

theorem NoneRefused.of_append (h : NoneRefused (ts ++ us)) : NoneRefused ts ∧ NoneRefused us :=
  List.forall_mem_append.1 h

theorem SameItems.of_eq (h : ts' = ts) : SameItems ts ts' :=
  ⟨fun _ ↦ by rw [h], fun _ ↦ by rw [h]⟩

theorem SameItems.append (h : SameItems ts ts') (h' : SameItems us us') :
    SameItems (ts ++ us) (ts' ++ us') where
  accepted queue := by
    rw [accepted_append, accepted_append, h.accepted, h'.accepted]
  taken queue := by
    rw [taken_append, taken_append, h.taken, h'.taken]

/-- A writer that is given the same twice gets the same accepted, if no item is refused. -/
theorem Writes.sameItems {single : Option Datum} {batch : List Datum}
    (h : Writes queue single batch ts) (h' : Writes queue single batch ts')
    (hkept : NoneRefused ts) (hkept' : NoneRefused ts') : SameItems ts ts' where
  accepted other := by
    by_cases hother : queue = other
    · subst hother
      calc
        Transfer.accepted queue ts' = Transfer.offered queue ts' := accepted_eq_offered hkept'
        _ = single.toList ++ batch := h'.complete hkept'
        _ = Transfer.offered queue ts := (h.complete hkept).symm
        _ = Transfer.accepted queue ts := (accepted_eq_offered hkept).symm
    · rw [accepted_eq_nil fun t ht heq ↦ hother ((h'.only t ht).1.symm.trans heq),
        accepted_eq_nil fun t ht heq ↦ hother ((h.only t ht).1.symm.trans heq)]
  taken other := by
    rw [taken_eq_nil_of_offer fun t ht _ ↦ (h'.only t ht).2,
      taken_eq_nil_of_offer fun t ht _ ↦ (h.only t ht).2]

end Transfer

/-- Besides being processed writers and readers do not use queues. -/
theorem Role.within_perform_of_ne_process {σ ω : Type} [Behaviour σ ω] {role : Role σ}
    (hidden : role.isHidden = true) {phase : Phase} (hphase : phase ≠ .process)
    (thread : Option String) (reach : Reach) :
    (role.perform phase thread).Within reach fun _ ↦ True := by
  cases role with
  | custom state => cases hidden
  | writer queue | reader queue =>
    cases phase with
    | process => exact absurd rfl hphase
    | reset => exact fun _ ↦ trivial
    | init | destroy => trivial

namespace Graph

open Transfer

variable {σ ω : Type} [Behaviour σ ω] {g g' g'' : Graph σ ω} {phase : Phase} {thread : String}
  {a id : NodeId} {ids rest : List NodeId} {slot : Slot σ ω} {own uses : NodeId → QueueId → Prop}
  {edges : List Edge} {post : NodeId → Role σ → Prop} {queue : QueueId} {run : Run} {c : Call σ ω}

/-- The oldest item of a queue, if there is one. -/
def oldest (g : Graph σ ω) (queue : QueueId) : Option Datum :=
  (g.queue? queue).bind (·.queue.items.head?)

omit [Behaviour σ ω] in
theorem oldest_congr (h : g'.queue? queue = g.queue? queue) :
    g'.oldest queue = g.oldest queue := by
  rw [oldest, h, oldest]

omit [Behaviour σ ω] in
theorem take_eq_oldest (g : Graph σ ω) (ports : List (Port PortRef ω)) (queue : QueueId) :
    ((⟨ports, g.queues⟩ : Scene PortRef ω).take queue).2 = g.oldest queue := by
  unfold oldest queue? Scene.take
  cases g.queues[queue.index]? <;> rfl

/-- Graphs with the same nodes in a list, and the same in the queues that these use alone. -/
structure Agree (ids : List NodeId) (own : NodeId → QueueId → Prop) (g g' : Graph σ ω) : Prop where
  nodes : ∀ id ∈ ids, g'.slot? id = g.slot? id
  queues : ∀ id ∈ ids, ∀ queue, own id queue → g'.queue? queue = g.queue? queue

/-- What comes of a call in two graphs that agree. -/
structure SameCall (ids : List NodeId) (own : NodeId → QueueId → Prop) (phase : Phase)
    (thread : String) (id : NodeId) (g g' : Graph σ ω) : Prop where
  alive : ((g'.call phase (some thread) id).1.reportEnding phase thread id
      (g'.call phase (some thread) id).2.1).2 =
    ((g.call phase (some thread) id).1.reportEnding phase thread id
      (g.call phase (some thread) id).2.1).2
  agree : Agree ids own (g.call phase (some thread) id).1 (g'.call phase (some thread) id).1
  items : NoneRefused (g.transfersOf phase (some thread) id) →
    NoneRefused (g'.transfersOf phase (some thread) id) →
      SameItems (g.transfersOf phase (some thread) id) (g'.transfersOf phase (some thread) id)

namespace Agree

omit [Behaviour σ ω] in
protected theorem refl (ids : List NodeId) (own : NodeId → QueueId → Prop) (g : Graph σ ω) :
    Agree ids own g g :=
  ⟨fun _ _ ↦ rfl, fun _ _ _ _ ↦ rfl⟩

omit [Behaviour σ ω] in
protected theorem symm (h : Agree ids own g g') : Agree ids own g' g where
  nodes id hid := (h.nodes id hid).symm
  queues id hid queue hown := (h.queues id hid queue hown).symm

omit [Behaviour σ ω] in
protected theorem trans (h : Agree ids own g g') (h' : Agree ids own g' g'') :
    Agree ids own g g'' where
  nodes id hid := (h'.nodes id hid).trans (h.nodes id hid)
  queues id hid queue hown := (h'.queues id hid queue hown).trans (h.queues id hid queue hown)

/-- A call does the same if it ends in the same way, leaves the same of the node, and the same in
the queues that nodes use alone. -/
theorem sameCall (h : Agree ids own g g') (hid : id ∈ ids) (hslot : g.slot? id = some slot)
    (hresult : (g'.performed phase (some thread) slot.node).1 =
      (g.performed phase (some thread) slot.node).1)
    (hports : (g'.performed phase (some thread) slot.node).2.1.ports =
      (g.performed phase (some thread) slot.node).2.1.ports)
    (hqueues : ∀ a ∈ ids, ∀ queue, own a queue →
      (g'.performed phase (some thread) slot.node).2.1.queues[queue.index]? =
        (g.performed phase (some thread) slot.node).2.1.queues[queue.index]?)
    (hitems : NoneRefused (g.transfersOf phase (some thread) id) →
      NoneRefused (g'.transfersOf phase (some thread) id) →
        SameItems (g.transfersOf phase (some thread) id)
          (g'.transfersOf phase (some thread) id)) :
    SameCall ids own phase thread id g g' := by
  have hslot' : g'.slot? id = some slot := (h.nodes id hid).trans hslot
  refine ⟨?_, ?_, hitems⟩
  all_goals rw [call_eq hslot', call_eq hslot]
  · rw [snd_reportEnding (slot?_called_self hslot' _ _), snd_reportEnding
      (slot?_called_self hslot _ _), hresult]
  · refine ⟨fun a ha ↦ ?_, hqueues⟩
    rw [slot?_called, slot?_called, h.nodes a ha, hports, hresult]

/-- A call that uses no queues but those of its node does the same. -/
theorem sameCall_of_within (h : Agree ids own g g') (hid : id ∈ ids)
    (hslot : g.slot? id = some slot)
    (hpublished : ∀ index source, sources slot.node.ports index = some source →
      g'.published source = g.published source)
    {reach : Reach} {post : Except Stop Unit × Role σ → Prop}
    (hwithin : (slot.node.role.perform phase (some thread)).Within reach post)
    (huses : ∀ queue, reach.uses queue → own id queue) :
    SameCall ids own phase thread id g g' := by
  have halike : (⟨slot.node.ports, g.queues⟩ : Scene PortRef ω).Alike reach.uses
      ⟨slot.node.ports, g'.queues⟩ :=
    ⟨rfl, fun queue hqueue ↦ h.queues id hid queue (huses queue hqueue)⟩
  obtain ⟨hbehind, hresult⟩ := hwithin.run_congr halike hpublished
  refine h.sameCall hid hslot hresult hbehind.ports (fun a ha queue hown ↦ ?_) fun _ _ ↦ .of_eq ?_
  · by_cases hqueue : reach.uses queue
    · exact hbehind.queues queue hqueue
    · calc (g'.performed phase (some thread) slot.node).2.1.queues[queue.index]?
        _ = g'.queues[queue.index]? := hwithin.queues_run hqueue ⟨slot.node.ports, g'.queues⟩
        _ = g.queues[queue.index]? := h.queues a ha queue hown
        _ = (g.performed phase (some thread) slot.node).2.1.queues[queue.index]? :=
          (hwithin.queues_run hqueue ⟨slot.node.ports, g.queues⟩).symm
  · rw [transfersOf, transfersOf, h.nodes id hid, hslot]
    exact hwithin.transfers_congr g.published halike hpublished

section Adapters

variable (h : Agree ids own g g') (hid : id ∈ ids) (hslot : g.slot? id = some slot)
  (hpublished : ∀ index source, sources slot.node.ports index = some source →
    g'.published source = g.published source) (hapart : ∀ a ∈ ids, ¬ own a queue)

include h hapart in
/-- A writer or reader leaves the queues alone that nodes use alone. -/
theorem queues_performed (hqueue : slot.node.role.queue? = some queue) (phase : Phase)
    (thread : String) : ∀ a ∈ ids, ∀ other, own a other →
      (g'.performed phase (some thread) slot.node).2.1.queues[other.index]? =
        (g.performed phase (some thread) slot.node).2.1.queues[other.index]? := by
  intro a ha other hown
  have hne : ¬ other = queue := by
    rintro rfl
    exact hapart a ha hown
  have hreach : (slot.node.role.perform phase (some thread)).Within
      ⟨fun _ ↦ True, (· = queue)⟩ fun _ ↦ True :=
    Role.within_perform_of_queue? (fun _ ↦ True) hqueue rfl trivial phase _
  calc (g'.performed phase (some thread) slot.node).2.1.queues[other.index]?
    _ = g'.queues[other.index]? := hreach.queues_run hne ⟨slot.node.ports, g'.queues⟩
    _ = g.queues[other.index]? := h.queues a ha other hown
    _ = (g.performed phase (some thread) slot.node).2.1.queues[other.index]? :=
      (hreach.queues_run hne ⟨slot.node.ports, g.queues⟩).symm

include h hid hslot hpublished hapart

/-- A writer does the same, whatever its queue holds, unless an item is refused. -/
theorem sameCall_of_writer (hnode : slot.node.role = .writer queue) :
    SameCall ids own .process thread id g g' := by
  have hrun (g : Graph σ ω) : (g.performed .process (some thread) slot.node).1 =
      (.ok (), .writer queue) ∧
      (g.performed .process (some thread) slot.node).2.1.ports = slot.node.ports := by
    rw [performed, hnode]
    exact Role.run_perform_writer g.published queue (some thread) ⟨slot.node.ports, g.queues⟩
  refine h.sameCall hid hslot ((hrun g').1.trans (hrun g).1.symm)
    ((hrun g').2.trans (hrun g).2.symm)
    (h.queues_performed hapart (by rw [hnode]; rfl) .process thread) fun hkept hkept' ↦ ?_
  have hslot' : g'.slot? id = some slot := (h.nodes id hid).trans hslot
  rw [transfersOf_of_slot? hslot, hnode] at hkept ⊢
  rw [transfersOf_of_slot? hslot', hnode] at hkept' ⊢
  have hread (index : Nat) : readAt g'.published slot.node.ports index =
      readAt g.published slot.node.ports index :=
    Option.bind_congr fun source hsource ↦ hpublished index source hsource
  have hwrites : Writes queue (readAt g.published slot.node.ports 0)
      (batchItems (readAt g.published slot.node.ports 1))
      (((Role.writer queue : Role σ).perform .process (some thread)).transfers g'.published
        ⟨slot.node.ports, g'.queues⟩) := by
    rw [← hread, ← hread]
    exact Role.writes_perform g'.published queue (some thread) ⟨slot.node.ports, g'.queues⟩
  exact (Role.writes_perform g.published queue (some thread) _).sameItems hwrites hkept hkept'

/-- A reader does the same if the oldest item is the same. -/
theorem sameCall_of_reader (hnode : slot.node.role = .reader queue)
    (hhead : g'.oldest queue = g.oldest queue) : SameCall ids own .process thread id g g' := by
  have htake : ((⟨slot.node.ports, g'.queues⟩ : Scene PortRef ω).take queue).2 =
      ((⟨slot.node.ports, g.queues⟩ : Scene PortRef ω).take queue).2 := by
    rw [take_eq_oldest, take_eq_oldest, hhead]
  have hrun : (g'.performed .process (some thread) slot.node).1 =
      (g.performed .process (some thread) slot.node).1 ∧
      (g'.performed .process (some thread) slot.node).2.1.ports =
        (g.performed .process (some thread) slot.node).2.1.ports := by
    rw [performed, performed, hnode]
    exact Role.run_perform_reader_congr g.published queue (some thread) rfl hpublished htake
  refine h.sameCall hid hslot hrun.1 hrun.2
    (h.queues_performed hapart (by rw [hnode]; rfl) .process thread) fun _ _ ↦ .of_eq ?_
  calc
    g'.transfersOf .process (some thread) id =
        [.take queue ((⟨slot.node.ports, g'.queues⟩ : Scene PortRef ω).take queue).2] := by
      rw [transfersOf_of_slot? ((h.nodes id hid).trans hslot), hnode,
        Role.transfers_perform_reader]
    _ = [.take queue ((⟨slot.node.ports, g.queues⟩ : Scene PortRef ω).take queue).2] := by
      rw [htake]
    _ = g.transfersOf .process (some thread) id := by
      rw [transfersOf_of_slot? hslot, hnode, Role.transfers_perform_reader]

end Adapters

/-- A call of a node does the same that shares nothing but ports, if for a reader the oldest item
is the same. -/
theorem call (h : Agree ids own g g') (hid : id ∈ ids) (hedges : ∀ e ∈ edges, e.1 ∈ ids)
    (hready : Ready edges (g.usesOf own) phase thread post id g)
    (hadapters : ∀ a ∈ ids, ∀ queue, own a queue → g.queueOf id ≠ some queue)
    (hhead : ∀ queue, g.role? id = some (.reader queue) → g'.oldest queue = g.oldest queue) :
    SameCall ids own phase thread id g g' := by
  obtain ⟨slot, hslot, hwithin⟩ := hready.within
  have hrole := role?_of_slot? hslot
  have hpublished : ∀ index source, sources slot.node.ports index = some source →
      g'.published source = g.published source := by
    intro index source hsource
    have hread : g.sourceOf ⟨id, index⟩ = some source := by
      rw [sourceOf, hslot]
      exact hsource
    exact published_congr (h.nodes _ (hedges _ (hready.sources index source hread)))
  have hqueueOf : g.queueOf id = slot.node.role.queue? := by
    rw [queueOf, hrole, Option.bind_some]
  have hapart {queue : QueueId} (hqueue : slot.node.role.queue? = some queue) :
      ∀ a ∈ ids, ¬ own a queue :=
    fun a ha hown ↦ hadapters a ha queue hown (hqueueOf.trans hqueue)
  -- Unless they are processed, writers and readers use no queue at all.
  have hsilent (hidden : slot.node.role.isHidden = true) (hphase : phase ≠ .process) :
      SameCall ids own phase thread id g g' :=
    h.sameCall_of_within hid hslot hpublished (Role.within_perform_of_ne_process hidden hphase
      (some thread) ⟨fun _ ↦ False, fun _ ↦ False⟩) fun _ ↦ False.elim
  cases hnode : slot.node.role with
  | custom state =>
    refine h.sameCall_of_within hid hslot hpublished hwithin fun queue huses ↦ ?_
    refine huses.resolve_right fun hqueue ↦ ?_
    rw [hqueueOf, hnode] at hqueue
    cases hqueue
  | writer queue =>
    by_cases hphase : phase = .process
    · subst hphase
      exact h.sameCall_of_writer hid hslot hpublished (hapart (by rw [hnode]; rfl)) hnode
    · exact hsilent (by rw [hnode]; rfl) hphase
  | reader queue =>
    by_cases hphase : phase = .process
    · subst hphase
      exact h.sameCall_of_reader hid hslot hpublished (hapart (by rw [hnode]; rfl)) hnode
        (hhead queue (hrole.trans (congrArg some hnode)))
    · exact hsilent (by rw [hnode]; rfl) hphase

end Agree

end Graph

end SignalFlow
