import SignalFlow.Proofs.Graph.Cells
import SignalFlow.Proofs.Graph.Cycle
import SignalFlow.Proofs.Node.Trace

/-!
# Inputs read what was stored in the same cycle

A cycle empties all outputs before it processes the first node, and it processes a node behind all
nodes that its inputs are attached to. So an input reads what the call of its source has left in
the same cycle: the value that was stored last, unless the call took it away again. Nothing is read
that an earlier cycle stored.
-/

namespace SignalFlow

variable {σ ω : Type} [Behaviour σ ω]

namespace Role

/-- Whether the reset of a node leaves all its outputs empty. -/
def ClearsOutputs (thread : Option String) (role : Role σ) : Prop :=
  ∀ (published : PortRef → Option Datum) (scene : Scene PortRef ω) (index : Nat),
    heldAt ((role.perform .reset thread).run published scene).2.1.ports index = none

/-- The usual reset clears all outputs and does nothing else. -/
theorem clearsOutputs_of_usual {role : Role σ} {thread : Option String}
    (h : role.perform .reset thread = .clearAll fun _ ↦ .done (.ok (), role)) :
    role.ClearsOutputs thread := by
  intro published scene index
  rw [h]
  exact scene.held_clearAll index

theorem clearsOutputs_of_isHidden {role : Role σ} (h : role.isHidden = true)
    (thread : Option String) : role.ClearsOutputs thread := by
  cases role with
  | custom state => cases h
  | writer queue => exact clearsOutputs_of_usual rfl
  | reader queue => exact clearsOutputs_of_usual rfl

end Role

namespace Graph

variable {g g' : Graph σ ω} {phase : Phase} {thread : String} {id t : NodeId}
  {ids before behind : List NodeId} {ref source : PortRef} {run : Run} {events : List Event}

/-- What a call of a node does with its ports. -/
def eventsOf (g : Graph σ ω) (phase : Phase) (thread : Option String) (id : NodeId) : List Event :=
  (g.slot? id).elim [] fun slot ↦
    (slot.node.role.perform phase thread).trace g.published ⟨slot.node.ports, g.queues⟩

theorem eventsOf_of_slot? {slot : Slot σ ω} (hslot : g.slot? id = some slot) (phase : Phase)
    (thread : Option String) : g.eventsOf phase thread id =
      (slot.node.role.perform phase thread).trace g.published ⟨slot.node.ports, g.queues⟩ := by
  rw [eventsOf, hslot, Option.elim_some]

omit [Behaviour σ ω] in
theorem published_eq (g : Graph σ ω) (ref : PortRef) :
    g.published ref = (g.slot? ref.node).bind fun slot ↦ heldAt slot.node.ports ref.port :=
  rfl

omit [Behaviour σ ω] in
theorem published_congr (h : g'.slot? ref.node = g.slot? ref.node) :
    g'.published ref = g.published ref := by
  rw [published_eq, h, published_eq]

/-- What an output holds behind a visit of its node is what it held before, changed by the events
of the call. -/
theorem published_visit? (h : visit? phase thread g ref.node = some g') :
    g'.published ref =
      (g.eventsOf phase (some thread) ref.node).foldl (Event.leave ref.port) (g.published ref) := by
  cases hslot : g.slot? ref.node with
  | none =>
    rw [visit?, hslot] at h
    cases h
    rw [eventsOf, hslot]
    rfl
  | some slot =>
    calc
      g'.published ref =
          heldAt (g.performed phase (some thread) slot.node).2.1.ports ref.port := by
        rw [visit?_eq_some h hslot, published_eq, slot?_called_self hslot]
        rfl
      _ = ((slot.node.role.perform phase (some thread)).trace g.published
            ⟨slot.node.ports, g.queues⟩).foldl (Event.leave ref.port)
              (heldAt slot.node.ports ref.port) :=
        Act.held_run g.published _ ⟨slot.node.ports, g.queues⟩ ref.port
      _ = (g.eventsOf phase (some thread) ref.node).foldl (Event.leave ref.port)
            (g.published ref) := by
        rw [eventsOf_of_slot? hslot, published_eq, hslot]
        rfl

/-- Behind a row of visits an output holds what the one of its node left. -/
theorem published_visitAll? (hnodup : (before ++ ref.node :: behind).Nodup)
    (h : visitAll? phase thread (before ++ ref.node :: behind) g = some g') :
    ∃ between, visitAll? phase thread before g = some between ∧
      between.slot? ref.node = g.slot? ref.node ∧
      g'.published ref = (between.eventsOf phase (some thread) ref.node).foldl
        (Event.leave ref.port) (g.published ref) := by
  obtain ⟨-, hrest, hapart⟩ := List.nodup_append.1 hnodup
  have hbefore : ref.node ∉ before := fun hmem ↦ hapart _ hmem _ List.mem_cons_self rfl
  have hbehind : ref.node ∉ behind := (List.nodup_cons.1 hrest).1
  rw [visitAll?_append] at h
  obtain ⟨between, hfirst, h⟩ := Option.bind_eq_some_iff.1 h
  obtain ⟨visited, hvisit, hlast⟩ := Option.bind_eq_some_iff.1 h
  have hsame : between.slot? ref.node = g.slot? ref.node := slot?_visitAll? hfirst hbefore
  refine ⟨between, hfirst, hsame, ?_⟩
  calc g'.published ref
    _ = visited.published ref := published_congr (slot?_visitAll? hlast hbehind)
    _ = (between.eventsOf phase (some thread) ref.node).foldl (Event.leave ref.port)
          (between.published ref) := published_visit? hvisit
    _ = _ := by rw [published_congr hsame]

/-- Behind a reset of all nodes of a list their outputs are empty. -/
theorem published_of_reset (hnodup : ids.Nodup) (h : visitAll? .reset thread ids g = some g')
    (hmem : ref.node ∈ ids)
    (hclears : ∀ role, g.role? ref.node = some role → role.ClearsOutputs (some thread)) :
    g'.published ref = none := by
  obtain ⟨before, behind, rfl⟩ := List.append_of_mem hmem
  obtain ⟨between, -, hsame, hpublished⟩ := published_visitAll? hnodup h
  rw [hpublished, published_eq, ← hsame, eventsOf]
  cases hslot : between.slot? ref.node with
  | none => rfl
  | some slot =>
    have hrole : g.role? ref.node = some slot.node.role := by
      rw [← role?_of_slot? hslot, role?, role?, hsame]
    have hempty := hclears _ hrole between.published ⟨slot.node.ports, between.queues⟩ ref.port
    rw [Act.held_run] at hempty
    exact hempty

theorem works_visitAll? (h : visitAll? phase thread ids g = some g') : g.Works g' := by
  rw [visitAll?_eq] at h
  split at h
  · exact Option.some.inj h ▸ Works.callAll phase thread ids g
  · cases h

/-- What the call that processes a node in a cycle does with the ports of the node, if the thread
comes to it. -/
def processed? (g : Graph σ ω) (run : Run) (id : NodeId) : Option (List Event) := do
  let thread := g.threadName run.subgraph
  let reset ← visitAll? .reset thread run.order g
  let between ← visitAll? .process thread (run.order.takeWhile (· != id)) reset
  return between.eventsOf .process (some thread) id

/-- A thread comes to a node when it has reset all nodes and processed those before. -/
theorem processed?_eq_some_iff (hnodup : run.order.Nodup)
    (horder : run.order = before ++ id :: behind) :
    g.processed? run id = some events ↔ ∃ reset between,
      visitAll? .reset (g.threadName run.subgraph) run.order g = some reset ∧
      visitAll? .process (g.threadName run.subgraph) before reset = some between ∧
      events = between.eventsOf .process (some (g.threadName run.subgraph)) id := by
  have hbefore : run.order.takeWhile (· != id) = before := by
    rw [horder] at hnodup ⊢
    have hne : ∀ other ∈ before, (other != id) = true := by
      rintro other hother
      rw [bne_iff_ne]
      exact fun heq ↦ (List.nodup_append.1 hnodup).2.2 _ hother _ List.mem_cons_self heq
    rw [List.takeWhile_append_of_pos hne, List.takeWhile_cons]
    simp
  unfold processed?
  simp only [hbefore, Option.bind_eq_bind, Option.bind_eq_some_iff, Option.pure_def,
    Option.some.injEq]
  constructor
  · rintro ⟨reset, hreset, between, hbetween, rfl⟩
    exact ⟨reset, between, hreset, hbetween, rfl⟩
  · rintro ⟨reset, between, hreset, hbetween, rfl⟩
    exact ⟨reset, hreset, between, hbetween, rfl⟩

theorem processed?_eq (hnodup : run.order.Nodup) (horder : run.order = before ++ id :: behind) :
    g.processed? run id =
      ((visitAll? .reset (g.threadName run.subgraph) run.order g).bind
        (visitAll? .process (g.threadName run.subgraph) before)).map
          (eventsOf · .process (some (g.threadName run.subgraph)) id) := by
  ext events
  rw [processed?_eq_some_iff hnodup horder]
  simp only [Option.map_eq_some_iff, Option.bind_eq_some_iff]
  constructor
  · rintro ⟨reset, between, hreset, hbetween, rfl⟩
    exact ⟨between, ⟨reset, hreset, hbetween⟩, rfl⟩
  · rintro ⟨between, ⟨reset, hreset, hbetween⟩, rfl⟩
    exact ⟨reset, between, hreset, hbetween, rfl⟩

theorem isSome_processed? (hnodup : run.order.Nodup) (hend : (g.cycle run).2.2 = true)
    (hmem : t ∈ run.order) : (g.processed? run t).isSome = true := by
  have hcycle : g.cycle? run = some (g.cycle run).1 := by rw [cycle?_eq, if_pos hend]
  obtain ⟨reset, hreset, hprocess⟩ := Option.bind_eq_some_iff.1 hcycle
  obtain ⟨before, behind, horder⟩ := List.append_of_mem hmem
  rw [horder, visitAll?_append] at hprocess
  obtain ⟨between, hbetween, -⟩ := Option.bind_eq_some_iff.1 hprocess
  have h := (processed?_eq_some_iff hnodup horder).2 ⟨reset, between, hreset, hbetween, rfl⟩
  rw [h, Option.isSome_some]

/-- Whether what inputs read and outputs hold in a cycle comes of calls in the same cycle. -/
structure ReadsFresh (g : Graph σ ω) (run : Run) : Prop where
  /-- A cycle that comes to its end processes every node. -/
  complete : (g.cycle run).2.2 = true → ∀ t ∈ run.order, (g.processed? run t).isSome = true
  /-- Behind the call of its source an input reads the value that this call left. -/
  reads : ∀ {t input source events}, t ∈ run.order → g.processed? run t = some events →
    g.sourceOf ⟨t, input⟩ = some source → source.node ∈ run.order ∧
      ∃ stored, g.processed? run source.node = some stored ∧
        ∀ e ∈ events, e.Tells input (Event.left stored source.port)
  /-- A call that clears nothing leaves what it stores. -/
  leaves : ∀ {t events}, t ∈ run.order → g.processed? run t = some events →
    (∀ e ∈ events, e.clears = false) → ∀ port value,
      Event.left events port = some value ↔ .store port value (.ok ()) ∈ events
  /-- Such a call stores in an output at most once. -/
  single : ∀ {t before port value behind}, t ∈ run.order →
    g.processed? run t = some (before ++ .store port value (.ok ()) :: behind) →
      (∀ e ∈ before, e.clears = false) → ∀ first, .store port first (.ok ()) ∉ before
  /-- A store is refused exactly if the same call has left a value there. -/
  stores : ∀ {t before port value result behind}, t ∈ run.order →
    g.processed? run t = some (before ++ .store port value result :: behind) →
      (result = .error .alreadySet ↔ (Event.left before port).isSome = true)
  /-- A node that stores once in an output is not refused because of a value. -/
  once : ∀ {t events port}, t ∈ run.order → g.processed? run t = some events →
    events.countP (Event.storesIn port) ≤ 1 → ∀ value,
      .store port value (.error .alreadySet) ∉ events

/-- A node is processed when its outputs are empty. -/
theorem obey_of_processed? (hnodup : run.order.Nodup) (hmem : t ∈ run.order)
    (hclears : ∀ role, g.role? t = some role →
      role.ClearsOutputs (some (g.threadName run.subgraph)))
    (h : g.processed? run t = some events) : Event.Obey (fun _ ↦ none) events := by
  obtain ⟨before, behind, horder⟩ := List.append_of_mem hmem
  obtain ⟨reset, between, hreset, hbetween, rfl⟩ := (processed?_eq_some_iff hnodup horder).1 h
  have hbefore : t ∉ before := by
    rw [horder] at hnodup
    exact fun hmem ↦ (List.nodup_append.1 hnodup).2.2 _ hmem _ List.mem_cons_self rfl
  rw [eventsOf]
  cases hslot : between.slot? t with
  | none => trivial
  | some slot =>
    have hempty : heldAt slot.node.ports = fun _ ↦ none := by
      funext index
      have hpublished : reset.published ⟨t, index⟩ = none :=
        published_of_reset hnodup hreset hmem hclears
      rw [published_eq, ← slot?_visitAll? hbetween hbefore, hslot] at hpublished
      exact hpublished
    have hobey := Act.obey_trace between.published
      (slot.node.role.perform .process (some (g.threadName run.subgraph)))
      ⟨slot.node.ports, between.queues⟩
    rw [hempty] at hobey
    exact hobey

/-- Behind the call that processes its node an output holds what this call has left. -/
theorem published_of_processed? (hnodup : run.order.Nodup) (horder : run.order = before ++ behind)
    (hsource : source.node ∈ before)
    (hclears : ∀ role, g.role? source.node = some role →
      role.ClearsOutputs (some (g.threadName run.subgraph))) {reset between : Graph σ ω}
    (hreset : visitAll? .reset (g.threadName run.subgraph) run.order g = some reset)
    (hbetween : visitAll? .process (g.threadName run.subgraph) before reset = some between) :
    ∃ stored, g.processed? run source.node = some stored ∧
      between.published source = Event.left stored source.port := by
  have hmem : source.node ∈ run.order := by
    rw [horder]
    exact List.mem_append_left _ hsource
  have hempty := published_of_reset hnodup hreset hmem hclears
  obtain ⟨first, rest, rfl⟩ := List.append_of_mem hsource
  have hnodup' : (first ++ source.node :: rest).Nodup := by
    rw [horder] at hnodup
    exact (List.nodup_append.1 hnodup).1
  obtain ⟨earlier, hearlier, -, hpublished⟩ := published_visitAll? hnodup' hbetween
  rw [hempty] at hpublished
  refine ⟨earlier.eventsOf .process (some (g.threadName run.subgraph)) source.node, ?_, hpublished⟩
  have horder' : run.order = first ++ source.node :: (rest ++ behind) := by
    rw [horder, List.append_assoc, List.cons_append]
  exact (processed?_eq_some_iff hnodup horder').2 ⟨reset, earlier, hreset, hearlier, rfl⟩

/-- What a node reads is what the call of its source has left before. -/
theorem tells_of_processed? {input : Nat} (hnodup : run.order.Nodup)
    (horder : run.order = before ++ t :: behind) (hsource : g.sourceOf ⟨t, input⟩ = some source)
    (hbefore : source.node ∈ before)
    (hclears : ∀ role, g.role? source.node = some role →
      role.ClearsOutputs (some (g.threadName run.subgraph)))
    (h : g.processed? run t = some events) :
    ∃ stored, g.processed? run source.node = some stored ∧
      ∀ e ∈ events, e.Tells input (Event.left stored source.port) := by
  obtain ⟨reset, between, hreset, hbetween, rfl⟩ := (processed?_eq_some_iff hnodup horder).1 h
  obtain ⟨stored, hstored, hpublished⟩ :=
    published_of_processed? hnodup horder hbefore hclears hreset hbetween
  refine ⟨stored, hstored, ?_⟩
  have hsame := ((works_visitAll? hreset).trans (works_visitAll? hbetween)).sourceOf
  rw [← hsame] at hsource
  obtain ⟨slot, hslot, hinput⟩ := Option.bind_eq_some_iff.1 hsource
  rw [eventsOf_of_slot? hslot, ← hpublished]
  exact Act.tells_trace between.published _ ⟨slot.node.ports, between.queues⟩ hinput

/-! ## Every cycle -/

omit [Behaviour σ ω] in
/-- Nodes that inputs are attached to come before the nodes of the inputs. -/
theorem source_mem_before {topology : Topology} (hg : g.Consistent topology)
    (hrecords : g.partition.Records topology.edges) (hwired : g.Wired topology.edges)
    (hne : ∀ e ∈ topology.edges, e.1 ≠ e.2) (hstaffed : g.Staffed) {runs : List Run}
    (hruns : g.runs = some runs) (hrun : run ∈ runs) (horder : run.order = before ++ t :: behind)
    {input : Nat} (hsource : g.sourceOf ⟨t, input⟩ = some source) : source.node ∈ before := by
  have hp := hg.represents.wellFormed
  have hmem : t ∈ run.order := by
    rw [horder]
    exact List.mem_append_right _ List.mem_cons_self
  obtain ⟨s, -, hsourceOf, htargetOf, hedge⟩ := hg.exists_of_sourceOf hrecords hwired hsource
  obtain rfl : s = run.subgraph :=
    Option.some.inj (htargetOf.symm.trans ((hstaffed.mem_order_iff hp hruns hrun).1 hmem))
  have hmem' := (hstaffed.mem_order_iff hp hruns hrun).2 hsourceOf
  have hforward := hstaffed.forward_order hruns hrun
  rw [horder] at hmem' hforward
  rcases List.mem_append.1 hmem' with hbefore | hbehind
  · exact hbefore
  · rcases List.mem_cons.1 hbehind with heq | hbehind
    · exact absurd heq (hne _ ((hwired _ _).2 ⟨_, _, hsource⟩))
    · have hlater := (List.pairwise_cons.1 (List.pairwise_append.1 hforward).2.1).1 _ hbehind
      exact absurd hedge hlater

/-- Whatever is done to a graph whose inputs are attached by connections only: if the resets of
the nodes of a thread clear outputs, inputs read in every cycle what calls in the same cycle have
left. -/
theorem cycles_read_fresh (options : Options) (operations : List (Operation σ ω))
    (hwires : ∀ operation ∈ operations, operation.RewiresNothing) {runs : List Run} {run : Run}
    (hruns : ((empty options).after operations).runs = some runs) (hrun : run ∈ runs)
    (hresets : ∀ id ∈ run.order, ∀ state,
      ((empty options).after operations).role? id = some (.custom state) →
        (Role.custom state).ClearsOutputs
          (some (((empty options).after operations).threadName run.subgraph))) :
    (((empty options).after operations).caughtUp run).ReadsFresh run := by
  have hg := consistent_after options operations
  have hstaffed := staffed_after options operations
  have hnodup : run.order.Nodup :=
    (hstaffed.perm_order hruns hrun).nodup_iff.2 (hg.represents.wellFormed.nodup _)
  have hclears {id : NodeId} (hid : id ∈ run.order) (role : Role σ)
      (hrole : (((empty options).after operations).caughtUp run).role? id = some role) :
      role.ClearsOutputs
        (some ((((empty options).after operations).caughtUp run).threadName run.subgraph)) := by
    rw [role?_caughtUp] at hrole
    rw [threadName_caughtUp]
    cases role with
    | custom state => exact hresets id hid state hrole
    | writer queue | reader queue => exact Role.clearsOutputs_of_isHidden rfl _
  have hobey {t : NodeId} {events : List Event} (ht : t ∈ run.order)
      (h : (((empty options).after operations).caughtUp run).processed? run t = some events) :
      Event.Obey (fun _ ↦ none) events :=
    obey_of_processed? hnodup ht (hclears ht) h
  constructor
  case complete => exact fun hend t ht ↦ isSome_processed? hnodup hend ht
  case reads =>
    intro t input source events ht h hsource
    obtain ⟨before, behind, horder⟩ := List.append_of_mem ht
    have hbefore : source.node ∈ before := by
      rw [sourceOf_caughtUp] at hsource
      exact source_mem_before hg (records_after options operations) (wired_after options hwires)
        (ne_of_mem_edges_accepted options operations) hstaffed hruns hrun horder hsource
    have hmem : source.node ∈ run.order := by
      rw [horder]
      exact List.mem_append_left _ hbefore
    exact ⟨hmem, tells_of_processed? hnodup horder hsource hbefore (hclears hmem) h⟩
  case leaves => exact fun ht h hnone port value ↦ (hobey ht h).left_eq_some_iff hnone
  case single => exact fun ht h hnone ↦ (hobey ht h).not_stored_before hnone
  case stores => exact fun ht h ↦ (hobey ht h).refused_iff
  case once => exact fun ht h hcount value ↦ (hobey ht h).not_refused hcount

/-- Nodes that store a value, that store one and take it back in the same call, and that read. -/
inductive Speaker where
  | steady
  | fickle
  | listener
deriving DecidableEq

instance : Behaviour Speaker Empty where
  name _ := "speaker"
  naming _ _ := ⟨[], none⟩
  perform phase _ node :=
    match phase, node with
    | .reset, _ => .clearAll fun _ ↦ .done (.ok (), node)
    | .process, .steady => .store 0 (.word 5) fun _ ↦ .done (.ok (), node)
    | .process, .fickle => .store 0 (.word 5) fun _ ↦ .clear 0 fun _ ↦ .done (.ok (), node)
    | .process, .listener => .read 0 fun _ ↦ .done (.ok (), node)
    | .init, _ | .destroy, _ => .done (.ok (), node)

/-- A node with a listener behind it, started. -/
def conversation (speaker : Speaker) : List (Operation Speaker Empty) :=
  [.add [.output .word] speaker, .add [.input .word] .listener, .connect (.connect ⟨0⟩ ⟨1⟩),
    .start .willing]

def conversing : Run :=
  ⟨⟨0⟩, [⟨0⟩, ⟨1⟩], true⟩

theorem rewiresNothing_conversation (speaker : Speaker) :
    ∀ operation ∈ conversation speaker, operation.RewiresNothing := by
  intro operation hmem
  simp only [conversation, List.mem_cons, List.not_mem_nil, or_false] at hmem
  rcases hmem with rfl | rfl | rfl | rfl
  all_goals trivial

theorem runs_conversation (speaker : Speaker) :
    ((empty .standard).after (conversation speaker)).runs = some [conversing] := by
  cases speaker <;> decide

/-- The listener hears what a steady speaker says. -/
theorem conversation_is_fresh :
    (((empty .standard).after (conversation .steady)).caughtUp conversing).processed? conversing
        ⟨1⟩ = some [.read 0 (.ok (.word 5))] ∧
      (((empty .standard).after (conversation .steady)).caughtUp conversing).ReadsFresh
        conversing :=
  ⟨rfl, cycles_read_fresh .standard (conversation .steady) (rewiresNothing_conversation .steady)
    (runs_conversation .steady) List.mem_cons_self fun _ _ _ _ ↦ Role.clearsOutputs_of_usual rfl⟩

/-- The listener does not hear what a fickle speaker has stored in the same cycle. -/
theorem fickle_is_not_heard :
    (∀ operation ∈ conversation .fickle, operation.RewiresNothing) ∧
    ((empty .standard).after (conversation .fickle)).runs = some [conversing] ∧
    (∀ speaker : Speaker, ∀ thread, (Role.custom speaker).perform .reset thread =
      .clearAll fun _ ↦ .done (.ok (), .custom speaker)) ∧
    ((empty .standard).after (conversation .fickle)).sourceOf ⟨⟨1⟩, 0⟩ = some ⟨⟨0⟩, 0⟩ ∧
    (((empty .standard).after (conversation .fickle)).caughtUp conversing).processed? conversing
      ⟨0⟩ = some [.store 0 (.word 5) (.ok ()), .clear 0] ∧
    (((empty .standard).after (conversation .fickle)).caughtUp conversing).processed? conversing
      ⟨1⟩ = some [.read 0 (.error .noData)] :=
  ⟨rewiresNothing_conversation .fickle, runs_conversation .fickle, fun _ _ ↦ rfl, rfl, rfl, rfl⟩

end Graph

end SignalFlow
