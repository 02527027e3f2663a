import SignalFlow.Proofs.Graph.Recounting

/-!
# Hand-off across queues

The writer of a connection by a queue offers in each cycle what the source has left in the same
cycle. The consumer executes a cycle whenever the queue is not empty, and its reader publishes the
oldest item. So over the whole history of a graph only those items are lost that a full queue
refuses, and none is published twice or out of order.
-/

namespace SignalFlow.Graph

variable {σ ω : Type} [Behaviour σ ω] {g g' g'' : Graph σ ω} {t : Topology} {run : Run}
  {b : Bridge} {bridges : List Bridge} {calls : List (Call σ ω)}

section Cycle

variable {before behind : List NodeId} {id : NodeId} {role : Role σ} {c : Call σ ω} {port : Nat}
  {reset between : Graph σ ω}

/-- In a row of resets writers and readers make no transfers and store nothing. -/
theorem silent_of_reset {thread : String} {ids : List NodeId} (hnodup : ids.Nodup)
    (hrole : g.role? id = some role) (hidden : role.isHidden = true)
    (hc : c ∈ (callsAll .reset thread ids g).filter (·.node = id)) (port : Nat) :
    c.transfers = [] ∧ Event.stored port c.events = [] := by
  obtain ⟨hcall, hnode⟩ := List.mem_filter.1 hc
  obtain rfl := of_decide_eq_true hnode
  have hslot := slot?_of_mem_callsAll hnodup hcall
  obtain ⟨-, -, -, -, hphase, -⟩ := exists_of_mem_callsAll hcall
  obtain ⟨slot, hg, rfl⟩ := Option.map_eq_some_iff.1 hrole
  rw [hg] at hslot
  rw [Call.transfers, Graph.transfersOf_of_slot? hslot, Call.events,
    Graph.eventsOf_of_slot? hslot]
  exact Role.perform_of_ne_process _ hidden (by rw [hphase]; decide) _ _ _

/-- With usual resets the thread processes a node with the role that the node had. -/
theorem exists_slot_of_visited {thread : String} {ids : List NodeId}
    (husual : ∀ id role, g.role? id = some role → role.ResetsUsually)
    (hreset : visitAll? .reset thread ids g = some reset)
    (hbetween : visitAll? .process thread before reset = some between) (hid : id ∉ before)
    (hrole : g.role? id = some role) :
    ∃ slot, between.slot? id = some slot ∧ slot.node.role = role := by
  have hsame : between.role? id = some role := by
    rw [role?_congr (slot?_visitAll? hbetween hid), role?_of_visitAll?_reset husual hreset, hrole]
  exact Option.map_eq_some_iff.1 hsame

/-- Whether the calls of a cycle offer once what the source of a bridge has left before at a port:
the value that it has stored, unless it clears outputs. More is offered only to pass on batches. -/
def OffersFresh (g : Graph σ ω) (run : Run) (b : Bridge) (port : Nat) (calls : List (Call σ ω)) :
    Prop :=
  ∃ stored batch, g.processed? run b.source = some stored ∧
    offeredBy b.writer b.queue calls = (Event.left stored port).toList ++ batch ∧
    (g.sourceOf ⟨b.writer, 1⟩ = none → batch = []) ∧
    ((∀ e ∈ stored, e.clears = false) → ∀ value,
      Event.left stored port = some value ↔ .store port value (.ok ()) ∈ stored)

theorem offersFresh_of_processed? (hnodup : run.order.Nodup)
    (horder : run.order = before ++ b.writer :: behind)
    (husual : ∀ id role, g.role? id = some role → role.ResetsUsually)
    (hrole : g.role? b.writer = some (.writer b.queue))
    (hsource : g.sourceOf ⟨b.writer, 0⟩ = some ⟨b.source, port⟩) (hbefore : b.source ∈ before) :
    g.processed? run b.writer = none ∧ offeredBy b.writer b.queue (g.callsCycle run) = [] ∨
      g.OffersFresh run b port (g.callsCycle run) := by
  have hresets : ((callsAll .reset (g.threadName run.subgraph) run.order g).filter
      (·.node = b.writer)).flatMap Call.transfers = [] :=
    List.flatMap_eq_nil_iff.2 fun c hc ↦ (silent_of_reset hnodup hrole rfl hc 0).1
  have hoffers := congrArg (Transfer.offered b.queue ∘ transfersIn)
    (filter_callsCycle hnodup horder g)
  simp only [Function.comp_apply, transfersIn, List.flatMap_append, hresets, List.nil_append]
    at hoffers
  rw [processed?_eq hnodup horder]
  cases hmeets : (visitAll? .reset (g.threadName run.subgraph) run.order g).bind
      (visitAll? .process (g.threadName run.subgraph) before) with
  | none =>
    rw [hmeets] at hoffers
    exact .inl ⟨rfl, hoffers⟩
  | some between =>
    right
    rw [hmeets, Option.elim_some, List.flatMap_singleton] at hoffers
    obtain ⟨reset, hreset, hbetween⟩ := Option.bind_eq_some_iff.1 hmeets
    have hmem : b.source ∈ run.order := by
      rw [horder]
      exact List.mem_append_left _ hbefore
    have hclears : ∀ role, g.role? b.source = some role →
        role.ClearsOutputs (some (g.threadName run.subgraph)) :=
      fun role hrole ↦ Role.clearsOutputs_of_usual (husual b.source role hrole _)
    have houtput : (⟨b.source, port⟩ : PortRef).node ∈ before := hbefore
    obtain ⟨stored, hstored, hpublished⟩ :=
      published_of_processed? hnodup horder houtput hclears hreset hbetween
    have hsources : between.sourceOf = g.sourceOf :=
      ((works_visitAll? hreset).trans (works_visitAll? hbetween)).sourceOf
    have hwriter : b.writer ∉ before := by
      rw [horder] at hnodup
      have hother := (List.nodup_cons.1 (List.nodup_middle.1 hnodup)).1
      exact fun hmem ↦ hother (List.mem_append_left _ hmem)
    obtain ⟨slot, hslot, hnode⟩ :=
      exists_slot_of_visited husual hreset hbetween hwriter hrole
    have hinput (input : Nat) : g.sourceOf ⟨b.writer, input⟩ = sources slot.node.ports input := by
      rw [← hsources, sourceOf, hslot]
      rfl
    have hsingle : readAt between.published slot.node.ports 0 = Event.left stored port := by
      rw [readAt, ← hinput, hsource]
      exact hpublished
    have hwrites : Transfer.Writes b.queue (readAt between.published slot.node.ports 0)
        (batchItems (readAt between.published slot.node.ports 1))
        (((Role.writer b.queue : Role σ).perform .process
          (some (g.threadName run.subgraph))).transfers between.published
            ⟨slot.node.ports, between.queues⟩) :=
      Role.writes_perform between.published b.queue _ ⟨slot.node.ports, between.queues⟩
    obtain ⟨batch, hbatch, hoffered⟩ := hwrites.offered
    refine ⟨stored, batch, hstored, ?_, fun hnone ↦ ?_, fun hnone value ↦ ?_⟩
    · calc
        offeredBy b.writer b.queue (g.callsCycle run) =
            Transfer.offered b.queue (between.transfersOf .process
              (some (g.threadName run.subgraph)) b.writer) := by
          rw [offeredBy, transfersIn, hoffers, Call.transfers]
        _ = (readAt between.published slot.node.ports 0).toList ++ batch := by
          rw [Graph.transfersOf_of_slot? hslot, hnode, hoffered]
        _ = (Event.left stored port).toList ++ batch := by rw [hsingle]
    · rw [readAt, ← hinput, hnone] at hbatch
      exact List.prefix_nil.1 hbatch
    · exact (obey_of_processed? hnodup hmem hclears hstored).left_eq_some_iff hnone

/-- The oldest item of a queue stays until the reader takes it. -/
theorem head?_of_untaken (hmoves : Moves b.queue g (transfersIn calls) g')
    (hminds : ∀ c ∈ calls, c.Minds b) (hnone : publishedBy b.reader calls = []) {q : DataQueue}
    (hq : g.queue? b.queue = some q) {item : Datum} {rest : List Datum}
    (hitems : q.queue.items = item :: rest) :
    ∃ q', g'.queue? b.queue = some q' ∧ q'.queue.items.head? = some item := by
  obtain ⟨hobey, hq'⟩ := hmoves q hq
  have hbalance := hobey.balance
  rw [taken_transfersIn hminds, hnone, hitems, List.nil_append] at hbalance
  refine ⟨_, hq', ?_⟩
  dsimp only
  rw [hbalance]
  rfl

/-- The thread publishes the oldest item of the queue once, if it comes to the reader. -/
theorem publishedBy_callsCycle (hnodup : run.order.Nodup)
    (horder : run.order = before ++ b.reader :: behind)
    (husual : ∀ id role, g.role? id = some role → role.ResetsUsually)
    (hrole : g.role? b.reader = some (.reader b.queue))
    (hminds : ∀ c ∈ g.callsCycle run, c.Minds b) {q : DataQueue}
    (hq : g.queue? b.queue = some q) {item : Datum} {rest : List Datum}
    (hitems : q.queue.items = item :: rest) :
    g.processed? run b.reader = none ∧ publishedBy b.reader (g.callsCycle run) = [] ∨
      publishedBy b.reader (g.callsCycle run) = [item] := by
  have hresets : ((callsAll .reset (g.threadName run.subgraph) run.order g).filter
      (·.node = b.reader)).flatMap (Event.stored 0 ∘ Call.events) = [] :=
    List.flatMap_eq_nil_iff.2 fun c hc ↦ (silent_of_reset hnodup hrole rfl hc 0).2
  have hfilter := filter_callsCycle hnodup horder g
  have hpublishes : publishedBy b.reader (g.callsCycle run) = _ :=
    congrArg (List.flatMap (Event.stored 0 ∘ Call.events)) hfilter
  rw [List.flatMap_append, hresets, List.nil_append] at hpublishes
  rw [hpublishes, processed?_eq hnodup horder]
  cases hmeets : (visitAll? .reset (g.threadName run.subgraph) run.order g).bind
      (visitAll? .process (g.threadName run.subgraph) before) with
  | none => exact .inl ⟨rfl, rfl⟩
  | some between =>
    right
    obtain ⟨reset, hreset, hbetween⟩ := Option.bind_eq_some_iff.1 hmeets
    have hreader : b.reader ∉ before := by
      rw [horder] at hnodup
      have hother := (List.nodup_cons.1 (List.nodup_middle.1 hnodup)).1
      exact fun hmem ↦ hother (List.mem_append_left _ hmem)
    obtain ⟨slot, hslot, hnode⟩ :=
      exists_slot_of_visited husual hreset hbetween hreader hrole
    have hcalls := callsCycle_eq horder hreset hbetween
    rw [hcalls] at hminds
    obtain ⟨hbefore, hbehind⟩ := List.forall_mem_append.1 hminds
    have hmoves := (Moves.visitAll b.queue hreset).trans (.visitAll b.queue hbetween)
    rw [← transfersIn_append] at hmoves
    have huntaken : publishedBy b.reader
        (callsAll .reset (g.threadName run.subgraph) run.order g ++
          callsAll .process (g.threadName run.subgraph) before reset) = [] := by
      rw [publishedBy, List.filter_append, filter_callsAll_of_not_mem hreader, List.append_nil]
      exact hresets
    obtain ⟨q', hq', hhead⟩ := head?_of_untaken hmoves hbefore huntaken hq hitems
    -- The reader publishes what it takes, which is this item.
    have hcall := hbehind _ (by rw [callsAll_cons]; exact List.mem_cons_self)
    have htakes : (Scene.take ⟨slot.node.ports, between.queues⟩ b.queue).2 =
        q'.queue.items.head? := Scene.taken_take hq'
    calc
      _ = Transfer.taken b.queue (between.transfersOf .process
            (some (g.threadName run.subgraph)) b.reader) := by
        rw [Option.elim_some, List.flatMap_singleton]
        exact hcall.publishes rfl
      _ = (Scene.take ⟨slot.node.ports, between.queues⟩ b.queue).2.toList := by
        rw [Graph.transfersOf_of_slot? hslot, hnode, Role.transfers_perform_reader,
          Transfer.taken_singleton]
      _ = [item] := by
        rw [htakes, hhead]
        rfl

end Cycle

omit [Behaviour σ ω] in
theorem heldAt_apply {κ : Type} (d : Binding) (ports : List (Port κ ω)) (value : Control.Value)
    (index : Nat) : heldAt (d.apply ports value).1 index = heldAt ports index := by
  rw [Binding.fst_apply]
  split
  · rfl
  · next data _ =>
    have hhold (p : Port κ ω) : (p.hold ⟨d.storage, data⟩).published = p.published := by
      cases p with
      | control c =>
        unfold Port.hold
        dsimp only
        split <;> rfl
      | input i => rfl
      | output o => rfl
    have hmap := map_modify_hold hhold ports d.port
    have hindex := congrArg (fun held ↦ held[index]?.bind id) hmap
    simpa only [heldAt, List.getElem?_map, Option.bind_map, Function.id_comp] using hindex

/-- A graph in which nothing but controls and waiting batches is different. -/
structure OnlyControls (g g' : Graph σ ω) : Prop where
  queues : g'.queues = g.queues
  published : g'.published = g.published
  role : g'.role? = g.role?
  sourceOf : g'.sourceOf = g.sourceOf
  runs : g'.runs = g.runs
  bindings : g'.bindings = g.bindings

namespace OnlyControls

omit [Behaviour σ ω] in
protected theorem trans (h : g.OnlyControls g') (h' : g'.OnlyControls g'') :
    g.OnlyControls g'' where
  queues := h'.queues.trans h.queues
  published := h'.published.trans h.published
  role := h'.role.trans h.role
  sourceOf := h'.sourceOf.trans h.sourceOf
  runs := h'.runs.trans h.runs
  bindings := h'.bindings.trans h.bindings

omit [Behaviour σ ω] in
theorem attempt (g : Graph σ ω) (d : Delivery) : g.OnlyControls (g.attempt d) where
  queues := rfl
  published := by
    funext ref
    rw [published_eq, slot?_attempt, published_eq]
    split
    · cases g.slot? ref.node with
      | none => rfl
      | some slot => exact heldAt_apply d.binding slot.node.ports d.value ref.port
    · rfl
  role := funext (role?_foldl_attempt g [d])
  sourceOf := (Works.modifyNode g d.binding.node fun slot _ ↦
    d.binding.sources_apply slot.node.ports d.value).sourceOf
  runs := rfl
  bindings := rfl

omit [Behaviour σ ω] in
/-- A thread that catches up sets controls and does nothing else. -/
theorem caughtUp (g : Graph σ ω) (run : Run) : g.OnlyControls (g.caughtUp run) := by
  have hfold (deliveries : List Delivery) (g : Graph σ ω) :
      g.OnlyControls (deliveries.foldl Graph.attempt g) := by
    induction deliveries generalizing g with
    | nil => exact ⟨rfl, rfl, rfl, rfl, rfl, rfl⟩
    | cons d rest ih => exact (attempt g d).trans (ih _)
  have hreceived : g.OnlyControls { g with partition := (g.partition.receive run.subgraph).2 } :=
    ⟨rfl, rfl, rfl, rfl, rfl, rfl⟩
  exact hreceived.trans (hfold _ _)

end OnlyControls

/-! ## Hand-off -/

/-- What an iteration of the thread of its reader does with a queue. -/
structure TakesOne (g : Graph σ ω) (run : Run) (b : Bridge) (q : Queue Datum) : Prop where
  idle_iff : (g.iterate run).2.2 = .idle ↔ q.items = []
  cycle_iff : (g.iterate run).2.2 = .cycle ∨ (g.iterate run).2.2 = .died ↔ q.items ≠ []
  /-- A cycle publishes the oldest item, unless the thread dies before. -/
  publishes : ∀ {item rest}, q.items = item :: rest →
    publishedBy b.reader (g.callsIterate run) = [item] ∨
      (g.iterate run).2.2 = .died ∧ publishedBy b.reader (g.callsIterate run) = []
  /-- Without items the thread sets the controls that values wait for, and does nothing else. -/
  rests : q.items = [] → g.callsIterate run = [] ∧ (g.iterate run).1 = g.caughtUp run ∧
    g.OnlyControls (g.iterate run).1

/-- What an iteration of the thread of its writer does with a queue. -/
structure OffersOnce (g : Graph σ ω) (run : Run) (b : Bridge) (port : Nat) : Prop where
  cycle : (g.iterate run).2.2 = .cycle →
    (g.caughtUp run).OffersFresh run b port (g.callsIterate run)
  /-- Whatever becomes of the iteration, nothing else is offered. -/
  only : offeredBy b.writer b.queue (g.callsIterate run) = [] ∨
    (g.caughtUp run).OffersFresh run b port (g.callsIterate run)

/-- A graph in which a bridge has handed items over by a queue. -/
structure HandsOver (g : Graph σ ω) (calls : List (Call σ ω)) (b : Bridge) (q : Queue Datum) :
    Prop where
  /-- Nobody but the writer offers items, and nobody but the reader takes them. -/
  apart : ∀ c ∈ calls, ∀ t ∈ c.transfers, t.queue = b.queue →
    c.node = b.writer ∧ t.isOffer = true ∨ c.node = b.reader ∧ t.isOffer = false
  /-- What was accepted has been published or is in the queue, in the order of its acceptance. -/
  conserved : publishedBy b.reader calls ++ q.items = acceptedFrom b.writer b.queue calls
  bounded : q.size ≤ q.capacity
  /-- An item is refused only when as many are in the queue as it can hold. -/
  refused : ∀ {before item behind},
    transfersIn calls = before ++ .offer b.queue item false :: behind →
      (Transfer.accepted b.queue before).length =
        (Transfer.taken b.queue before).length + q.capacity
  writes : ∃ port, g.sourceOf ⟨b.writer, 0⟩ = some ⟨b.source, port⟩ ∧
    ∀ {runs run}, g.runs = some runs → run ∈ runs → b.writer ∈ run.order →
      g.OffersOnce run b port
  reads : ∀ {runs run}, g.runs = some runs → run ∈ runs → b.reader ∈ run.order →
    run.alive = true → g.TakesOne run b q

section Reached

variable {runs : List Run} {q : DataQueue}

theorem offersOnce (hg : g.Consistent t) (hrecords : g.partition.Records t.edges)
    (hwired : g.Wired t.edges) (hne : ∀ e ∈ t.edges, e.1 ≠ e.2) (hstaffed : g.Staffed)
    (hmodest : g.Modest bridges) (hb : b ∈ t.bridges) {port : Nat}
    (hsource : g.sourceOf ⟨b.writer, 0⟩ = some ⟨b.source, port⟩) (hruns : g.runs = some runs)
    (hrun : run ∈ runs) (hmem : b.writer ∈ run.order) : g.OffersOnce run b port := by
  have hp := hg.represents.wellFormed
  have hnodup : run.order.Nodup := (hstaffed.perm_order hruns hrun).nodup_iff.2 (hp.nodup _)
  obtain ⟨before, behind, horder⟩ := List.append_of_mem hmem
  have hbefore : b.source ∈ before :=
    source_mem_before hg hrecords hwired hne hstaffed hruns hrun horder hsource
  have hroles : (g.caughtUp run).role? = g.role? := funext (role?_caughtUp g run)
  have hcycle := offersFresh_of_processed? hnodup horder (hroles ▸ hmodest.usual)
    (hroles ▸ (hg.adapters b hb).1) ((congrFun (sourceOf_caughtUp g run) _).trans hsource) hbefore
  have hnothing (hcalls : g.callsIterate run = []) (hkind : (g.iterate run).2.2 ≠ .cycle) :
      g.OffersOnce run b port :=
    ⟨fun hend ↦ absurd hend hkind, .inl (by rw [hcalls]; rfl)⟩
  cases halive : run.alive with
  | false => exact hnothing (by simp [callsIterate, halive]) (by simp [iterate, halive])
  | true =>
    rcases iterate_cases hp halive with ⟨-, hkind, hcalls⟩ | ⟨-, hcalls, hkind⟩
    · exact hnothing hcalls (by rw [hkind]; decide)
    · rw [← hcalls] at hcycle
      refine ⟨fun hend ↦ hcycle.resolve_left fun h ↦ ?_, hcycle.imp_left And.right⟩
      have hprocessed := isSome_processed? hnodup
        (hkind.resolve_right fun hdied ↦ by rw [hdied] at hend; cases hend).2 hmem
      rw [h.1] at hprocessed
      cases hprocessed

theorem takesOne (hg : g.Consistent t) (hstaffed : g.Staffed) (hmodest : g.Modest bridges)
    (hb : b ∈ t.bridges) (hminds : ∀ c ∈ g.callsIterate run, c.Minds b)
    (hq : g.queue? b.queue = some q) (hruns : g.runs = some runs) (hrun : run ∈ runs)
    (hmem : b.reader ∈ run.order) (halive : run.alive = true) : g.TakesOne run b q.queue := by
  have hp := hg.represents.wellFormed
  have hnodup : run.order.Nodup := (hstaffed.perm_order hruns hrun).nodup_iff.2 (hp.nodup _)
  obtain ⟨before, behind, horder⟩ := List.append_of_mem hmem
  have hstarved : g.isStarved run.subgraph = true ↔ q.queue.items = [] := by
    have hinbound : g.partition.inbound run.subgraph = some b.queue := by
      refine hg.fedBy.inbound_iff.2
        ⟨b, hb, rfl, ?_, (hstaffed.perm_order hruns hrun).mem_iff.1 hmem⟩
      rw [Partition.find_of_survives (hstaffed.survives hp hruns hrun)]
      exact (hstaffed.mem_order_iff hp hruns hrun).1 hmem
    rw [isStarved, hinbound]
    simp [queueShape, hq, DataQueue.shape, QueueShape.ofQueue, Queue.size]
  rcases iterate_cases hp halive with ⟨hempty, hkind, hcalls⟩ | ⟨hfed, hcalls, hkind⟩
  · have hitems := hstarved.1 hempty
    constructor
    case idle_iff => exact ⟨fun _ ↦ hitems, fun _ ↦ hkind⟩
    case cycle_iff => simp [hkind, hitems]
    case publishes =>
      intro item rest hsome
      rw [hitems] at hsome
      cases hsome
    case rests =>
      rw [fst_iterate_of_isStarved hp halive hempty]
      exact fun _ ↦ ⟨hcalls, rfl, .caughtUp g run⟩
  · have hitems : q.queue.items ≠ [] := by
      rw [ne_eq, ← hstarved, hfed]
      exact Bool.false_ne_true
    have hkind' : (g.iterate run).2.2 = .cycle ∨ (g.iterate run).2.2 = .died :=
      hkind.imp_left And.left
    have hroles : (g.caughtUp run).role? = g.role? := funext (role?_caughtUp g run)
    constructor
    case idle_iff =>
      refine ⟨fun hidle ↦ ?_, fun h ↦ absurd h hitems⟩
      rcases hkind' with h | h
      all_goals rw [h] at hidle; cases hidle
    case cycle_iff => exact ⟨fun _ ↦ hitems, fun _ ↦ hkind'⟩
    case publishes =>
      intro item rest hsome
      have hq' : (g.caughtUp run).queue? b.queue = some q := by
        rw [queue?, queues_caughtUp]
        exact hq
      rw [hcalls] at hminds ⊢
      rcases publishedBy_callsCycle hnodup horder (hroles ▸ hmodest.usual)
        (hroles ▸ (hg.adapters b hb).2) hminds hq' hsome with ⟨hnone, hpublished⟩ | hpublished
      · refine .inr ⟨hkind.resolve_left fun hend ↦ ?_, hpublished⟩
        have hprocessed := isSome_processed? hnodup hend.2 hmem
        rw [hnone] at hprocessed
        cases hprocessed
      · exact .inl hpublished
    case rests => exact fun h ↦ absurd h hitems

/-- Whatever is done to a graph: if threads alone call readers and change what the queues of bridges
hold, and nodes have the usual reset and use no such queue themselves, then items get lost only when
a full queue refuses them, and none is published twice or out of order. -/
theorem queues_hand_over (options : Options) (operations : List (Operation σ ω))
    (hrespects : ∀ operation ∈ operations,
      operation.Respects ((empty options).accepted operations).bridges)
    (hmodest : ∀ past, past <+: operations →
      ((empty options).after past).Modest ((empty options).accepted operations).bridges)
    (habandoned : ∀ past spawner g', past ++ [.start spawner] <+: operations →
      ((empty options).after past).abandoned spawner = some g' →
        g'.Modest ((empty options).accepted operations).bridges)
    (hb : b ∈ ((empty options).accepted operations).bridges) :
    ∃ q, ((empty options).after operations).queue? b.queue = some q ∧
      ((empty options).after operations).HandsOver ((empty options).history operations) b
        q.queue := by
  have hg := consistent_after options operations
  have hstaffed := staffed_after options operations
  have hrecounts :=
    recounts_after options (List.append_nil operations).symm hrespects hmodest habandoned
    hb
  have hplugged := plugged_after options hrespects b hb
  obtain ⟨port, hsource⟩ := hplugged.writer
  obtain ⟨q, hq⟩ : ∃ q, ((empty options).after operations).queue? b.queue = some q :=
    ⟨_, List.getElem?_eq_getElem (hg.queue_lt b hb)⟩
  obtain ⟨hobey, hheld⟩ := hrecounts.leads q hq
  refine ⟨q, hq, ?_⟩
  constructor
  case apart => exact fun c hc ↦ (hrecounts.minds c hc).uses
  case conserved =>
    have hbalance := hobey.balance
    rw [← hheld] at hbalance
    rw [← taken_transfersIn hrecounts.minds, ← accepted_transfersIn hrecounts.minds, hbalance]
    rfl
  case bounded =>
    have hle := hobey.size_le (Nat.zero_le _)
    rwa [← hheld] at hle
  case refused =>
    intro before item behind hsplit
    rw [hsplit] at hobey
    have hfull := hobey.size_of_refused (Nat.zero_le _)
    have hbalance := congrArg List.length hobey.of_append_left.balance
    rw [List.length_append, List.nil_append] at hbalance
    rw [← hbalance]
    exact congrArg _ hfull
  case writes =>
    refine ⟨port, hsource, fun hruns hrun hmem ↦ ?_⟩
    exact offersOnce hg (records_after options operations)
      (wired_after options fun operation hop ↦ (hrespects operation hop).rewiresNothing)
      (ne_of_mem_edges_accepted options operations) hstaffed (hmodest operations List.prefix_rfl)
      hb hsource hruns hrun hmem
  case reads =>
    intro runs run hruns hrun hmem halive
    refine takesOne hg hstaffed (hmodest operations List.prefix_rfl) hb (fun c hc ↦ ?_) hq hruns
      hrun hmem halive
    have hanchors : ((empty options).after operations).Anchors b :=
      anchors_after options hrespects ((List.append_nil operations).symm ▸ hb)
    have hpasses (g' : Graph σ ω) (h : (Operation.iterate run.subgraph).Passes
        ((empty options).after operations) g') :
        g'.Modest ((empty options).accepted operations).bridges := by
      rcases h with rfl | ⟨_, hstart, -⟩
      · exact hmodest operations List.prefix_rfl
      · cases hstart
    refine (minds_of_mem_calls hg hstaffed hpasses hanchors hb trivial c ?_).2
    simp only [Operation.calls]
    rwa [hstaffed.run?_of_mem hruns hrun, Option.elim_some]

end Reached

/-- Speakers and listeners have the usual reset and use no queues. -/
theorem modest_speaker (g : Graph Speaker Empty) (bridges : List Bridge) : g.Modest bridges where
  resets _ _ _ _ := rfl
  spares _ state _ phase thread := by
    cases phase with
    | process =>
      cases state with
      | steady | listener => exact fun _ ↦ trivial
      | fickle => exact fun _ _ ↦ trivial
    | reset => exact fun _ ↦ trivial
    | init | destroy => trivial

/-- A speaker and a listener with a queue for one item between them. The speaker says its word
twice before the listener comes to it, and once more behind a restart. -/
def relay : List (Operation Speaker Empty) :=
  [.add [.output .word] .steady, .add [.input .word] .listener,
    .connect (.connectQueuedWithCapacity ⟨0⟩ ⟨1⟩ 1), .start .willing, .iterate ⟨0⟩, .iterate ⟨0⟩,
    .iterate ⟨1⟩, .stop, .start .willing, .iterate ⟨0⟩]

def relaying : Bridge :=
  ⟨⟨0⟩, ⟨2⟩, ⟨3⟩, ⟨1⟩, ⟨0⟩⟩

/-- Of three items the second one is refused, the first one was published, and the last one is in
the queue. -/
theorem relay_hands_over :
    ((empty .standard).accepted relay).bridges = [relaying] ∧
    offeredBy ⟨2⟩ ⟨0⟩ ((empty .standard).history relay) = [.word 5, .word 5, .word 5] ∧
    acceptedFrom ⟨2⟩ ⟨0⟩ ((empty .standard).history relay) = [.word 5, .word 5] ∧
    publishedBy ⟨3⟩ ((empty .standard).history relay) = [.word 5] ∧
    ∃ q, ((empty .standard).after relay).queue? ⟨0⟩ = some q ∧
      ((empty .standard).after relay).HandsOver ((empty .standard).history relay) relaying
        q.queue := by
  have hbridges : ((empty .standard).accepted relay).bridges = [relaying] := by decide
  have hrespects : ∀ operation ∈ relay,
      operation.Respects ((empty .standard).accepted relay).bridges := by
    intro operation hmem
    simp only [relay, List.mem_cons, List.not_mem_nil, or_false] at hmem
    rcases hmem with rfl | rfl | rfl | rfl | rfl | rfl | rfl | rfl | rfl | rfl
    all_goals trivial
  refine ⟨hbridges, rfl, rfl, rfl, ?_⟩
  exact queues_hand_over .standard relay hrespects (fun past _ ↦ modest_speaker _ _)
    (fun past spawner g' _ _ ↦ modest_speaker _ _) (hbridges ▸ List.mem_cons_self)

end SignalFlow.Graph
