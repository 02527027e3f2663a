import SignalFlow.Proofs.Graph.Adapters
import SignalFlow.Proofs.Graph.Calls

/-!
# Items on their way through a queue

Nobody but its writer offers items to the queue of a connection, and nobody but its reader takes
them. The reader publishes all that it takes, since its output is cleared before it is processed.
So what the reader has published, followed by what the queue holds, is what the writer got
accepted.
-/

namespace SignalFlow

variable {σ ω : Type} [Behaviour σ ω]

/-- The items that a node has published at its first port. -/
def publishedBy (id : NodeId) (calls : List (Call σ ω)) : List Datum :=
  (calls.filter (·.node = id)).flatMap fun c ↦ Event.stored 0 c.events

/-- The items of a node that a queue accepted. -/
def acceptedFrom (id : NodeId) (queue : QueueId) (calls : List (Call σ ω)) : List Datum :=
  Transfer.accepted queue (transfersIn (calls.filter (·.node = id)))

/-- The items that a node offered to a queue. -/
def offeredBy (id : NodeId) (queue : QueueId) (calls : List (Call σ ω)) : List Datum :=
  Transfer.offered queue (transfersIn (calls.filter (·.node = id)))

/-- Whether a call minds the ends of a queue. -/
structure Call.Minds (b : Bridge) (c : Call σ ω) : Prop where
  /-- Only the writer offers items, and only the reader takes them. -/
  uses : ∀ t ∈ c.transfers, t.queue = b.queue →
    c.node = b.writer ∧ t.isOffer = true ∨ c.node = b.reader ∧ t.isOffer = false
  /-- The reader publishes what it takes. -/
  publishes : c.node = b.reader → Event.stored 0 c.events = Transfer.taken b.queue c.transfers

section Calls

variable {b : Bridge} {calls : List (Call σ ω)}

theorem taken_transfersIn (h : ∀ c ∈ calls, c.Minds b) :
    Transfer.taken b.queue (transfersIn calls) = publishedBy b.reader calls := by
  induction calls with
  | nil => rfl
  | cons c rest ih =>
    obtain ⟨hc, hrest⟩ := List.forall_mem_cons.1 h
    have hsplit : transfersIn (c :: rest) = c.transfers ++ transfersIn rest := List.flatMap_cons
    calc
      Transfer.taken b.queue (transfersIn (c :: rest)) =
          Transfer.taken b.queue c.transfers ++ publishedBy b.reader rest := by
        rw [hsplit, Transfer.taken_append, ih hrest]
      _ = publishedBy b.reader (c :: rest) := by
        rw [publishedBy, publishedBy, List.filter_cons]
        by_cases hreader : c.node = b.reader
        · rw [if_pos (decide_eq_true hreader), List.flatMap_cons, hc.publishes hreader]
        · rw [if_neg fun h ↦ hreader (of_decide_eq_true h), Transfer.taken_eq_nil_of_offer]
          · rfl
          · exact fun t ht hqueue ↦ ((hc.uses t ht hqueue).resolve_right fun h ↦ hreader h.1).2

theorem accepted_transfersIn (h : ∀ c ∈ calls, c.Minds b) :
    Transfer.accepted b.queue (transfersIn calls) = acceptedFrom b.writer b.queue calls := by
  induction calls with
  | nil => rfl
  | cons c rest ih =>
    obtain ⟨hc, hrest⟩ := List.forall_mem_cons.1 h
    have hsplit (calls : List (Call σ ω)) :
        transfersIn (c :: calls) = c.transfers ++ transfersIn calls := List.flatMap_cons
    calc
      Transfer.accepted b.queue (transfersIn (c :: rest)) =
          Transfer.accepted b.queue c.transfers ++ acceptedFrom b.writer b.queue rest := by
        rw [hsplit, Transfer.accepted_append, ih hrest]
      _ = acceptedFrom b.writer b.queue (c :: rest) := by
        rw [acceptedFrom, acceptedFrom, List.filter_cons]
        by_cases hwriter : c.node = b.writer
        · rw [if_pos (decide_eq_true hwriter), hsplit, Transfer.accepted_append]
        · rw [if_neg fun h ↦ hwriter (of_decide_eq_true h), Transfer.accepted_eq_nil_of_take]
          · rfl
          · exact fun t ht hqueue ↦ ((hc.uses t ht hqueue).resolve_left fun h ↦ hwriter h.1).2

end Calls

/-- Whether the reset of a node clears all outputs and does nothing else. -/
def Role.ResetsUsually (role : Role σ) : Prop :=
  ∀ thread, role.perform .reset thread = .clearAll fun _ ↦ .done (.ok (), role)

theorem Role.resetsUsually_of_isHidden {role : Role σ} (h : role.isHidden = true) :
    role.ResetsUsually := by
  cases role with
  | custom state => cases h
  | writer queue | reader queue => exact fun _ ↦ rfl

namespace Graph

variable {g g' : Graph σ ω} {t : Topology} {phase : Phase} {thread : String} {id : NodeId}
  {ids : List NodeId} {run : Run} {c : Call σ ω} {b : Bridge} {bridges : List Bridge}
  {operation : Operation σ ω}

theorem role?_of_visitAll?_reset (husual : ∀ id role, g.role? id = some role → role.ResetsUsually)
    (h : visitAll? .reset thread ids g = some g') : g'.role? = g.role? := by
  induction ids generalizing g with
  | nil =>
    cases h
    rfl
  | cons first rest ih =>
    obtain ⟨between, hfirst, hrest⟩ := Option.bind_eq_some_iff.1 h
    have hsame : between.role? = g.role? := by
      funext other
      by_cases hne : first = other
      · subst hne
        cases hslot : g.slot? first with
        | none =>
          rw [visit?, hslot] at hfirst
          rw [← Option.some.inj hfirst]
        | some slot =>
          have hreset := husual first slot.node.role (role?_of_slot? hslot) (some thread)
          rw [visit?_eq_some hfirst hslot, role?, slot?_called_self hslot, role?, hslot]
          simp only [performed, hreset, Act.run, Option.map_some]
      · exact role?_congr (slot?_visit? hfirst hne)
    rw [← hsame] at husual ⊢
    exact ih husual hrest

theorem steps_visitAll? (h : visitAll? phase thread ids g = some g') :
    Steps (· ∈ ids) g g' := by
  rw [visitAll?_eq] at h
  split at h
  · exact Option.some.inj h ▸ steps_callAll phase thread (fun _ hid ↦ hid) g
  · cases h

/-- The calls of a cycle are resets of nodes, or process nodes behind all resets. -/
theorem exists_of_mem_callsCycle (h : c ∈ g.callsCycle run) :
    c ∈ callsAll .reset (g.threadName run.subgraph) run.order g ∨
      ∃ reset, visitAll? .reset (g.threadName run.subgraph) run.order g = some reset ∧
        c ∈ callsAll .process (g.threadName run.subgraph) run.order reset := by
  rcases List.mem_append.1 h with hreset | hprocess
  · exact .inl hreset
  · cases hreset : visitAll? .reset (g.threadName run.subgraph) run.order g with
    | none =>
      rw [hreset] at hprocess
      cases hprocess
    | some reset =>
      rw [hreset] at hprocess
      exact .inr ⟨reset, rfl, hprocess⟩

omit [Behaviour σ ω] in
theorem output_of_cleared {type : DataType} {slot : Slot σ ω} {index : Nat}
    (hslot : g.slot? id = some slot) (hshape : g.shapeOf ⟨id, index⟩ = some (.output type))
    (hcleared : g.published ⟨id, index⟩ = none) :
    slot.node.ports[index]? = some (.output (.ofType type)) := by
  rw [shapeOf, hslot, Option.bind_some, shapes, List.getElem?_map, getElem?_frames] at hshape
  rw [published_eq, hslot, Option.bind_some, heldAt] at hcleared
  cases hport : slot.node.ports[index]? with
  | none =>
    rw [hport] at hshape
    cases hshape
  | some p =>
    rw [hport] at hshape hcleared
    cases p with
    | input i => cases hshape
    | control c => cases hshape
    | output o =>
      obtain ⟨type', value⟩ := o
      cases hshape
      cases hcleared
      rfl

/-- What a call finds of its node: the role that the node had before, and empty outputs if the node
is to be processed. -/
structure Finds (g : Graph σ ω) (c : Call σ ω) : Prop where
  role : c.graph.role? c.node = g.role? c.node
  empty : c.phase = .process → ∀ {index type slot}, c.graph.slot? c.node = some slot →
    g.shapeOf ⟨c.node, index⟩ = some (.output type) →
      slot.node.ports[index]? = some (.output (.ofType type))

omit [Behaviour σ ω] in
theorem Finds.congr (h : g.Finds c) (hrole : g.role? = g'.role?) (hshape : g.shapeOf = g'.shapeOf) :
    g'.Finds c where
  role := h.role.trans (congrFun hrole c.node)
  empty hphase {_ _ _} hslot hport := h.empty hphase hslot ((congrFun hshape _).trans hport)

/-- In a cycle with usual resets nodes are called with the roles that they had, and processed with
empty outputs. -/
theorem finds_of_mem_callsCycle
    (husual : ∀ id role, g.role? id = some role → role.ResetsUsually) (hnodup : run.order.Nodup)
    (h : c ∈ g.callsCycle run) : g.Finds c := by
  rcases exists_of_mem_callsCycle h with hcall | ⟨reset, hreset, hcall⟩
  · obtain ⟨before, behind, -, hbefore, hphase, -⟩ := exists_of_mem_callsAll hcall
    refine ⟨congrFun (role?_of_visitAll?_reset husual hbefore) c.node, fun hprocess ↦ ?_⟩
    rw [hphase] at hprocess
    cases hprocess
  · obtain ⟨before, behind, horder, hbefore, -, -⟩ := exists_of_mem_callsAll hcall
    have hslot : c.graph.slot? c.node = reset.slot? c.node := slot?_of_mem_callsAll hnodup hcall
    have hroles := role?_of_visitAll?_reset husual hreset
    refine ⟨(role?_congr hslot).trans (congrFun hroles c.node), ?_⟩
    intro _ index type slot hnode hport
    have hmem : c.node ∈ run.order := by
      rw [horder]
      exact List.mem_append_right _ List.mem_cons_self
    have hshapes : reset.shapeOf = g.shapeOf :=
      shapeOf_congr (lasts_shapes.steps (steps_visitAll? hreset))
    rw [hslot] at hnode
    refine output_of_cleared hnode ((congrFun hshapes _).trans hport) ?_
    exact published_of_reset hnodup hreset hmem fun role hrole ↦
      Role.clearsOutputs_of_usual (husual c.node role hrole _)

theorem finds_of_mem_callsLaunch {runs : List Run} (hnodup : (runs.flatMap Run.order).Nodup)
    (h : c ∈ g.callsLaunch runs) : g.Finds c := by
  have hslot := slot?_of_mem_callsEach (fun g run ↦ steps_callRun .init g fun _ hid ↦ hid)
    (fun _ _ _ hc ↦ hc) hnodup h
  have hrole : (g.manned runs).role? = g.role? := seen_setAvailable Node.role g _ false
  refine ⟨(role?_congr hslot).trans (congrFun hrole c.node), fun hprocess ↦ ?_⟩
  obtain ⟨_, run, _, -, hmem⟩ := exists_of_mem_callsEach h
  obtain ⟨-, -, -, -, hinit, -⟩ := exists_of_mem_callsAll hmem
  cases hinit.symm.trans hprocess

theorem finds_of_mem_callsStop (hnodup : g.away.Nodup) (h : c ∈ g.callsStop) : g.Finds c := by
  have hcalls (g : Graph σ ω) (run : Run) (c : Call σ ω)
      (hc : c ∈ if run.alive then callsRun .destroy g run else []) :
      c ∈ callsRun .destroy g run := by
    split at hc
    · exact hc
    · cases hc
  have hslot := slot?_of_mem_callsEach (fun g run ↦ ?_) hcalls hnodup h
  · refine ⟨role?_congr hslot, fun hprocess ↦ ?_⟩
    obtain ⟨_, run, _, -, hmem⟩ := exists_of_mem_callsEach h
    obtain ⟨-, -, -, -, hdestroy, -⟩ := exists_of_mem_callsAll (hcalls _ run c hmem)
    cases hdestroy.symm.trans hprocess
  · split
    · exact steps_callRun .destroy g fun _ hid ↦ hid
    · exact .refl

/-- The graphs in which an operation calls nodes: the present one, and if it is a start that is
taken back the one in which nodes have been initialised. -/
def Operation.Passes (g : Graph σ ω) (operation : Operation σ ω) (g' : Graph σ ω) : Prop :=
  g' = g ∨ ∃ spawner, operation = .start spawner ∧ g.abandoned spawner = some g'

/-- What lasts is seen in all of these graphs. -/
theorem Operation.Passes.seen_eq {β : Type} {see : Node σ ω → β} (hsee : Lasts see)
    (h : operation.Passes g g') : seen see g' = seen see g := by
  rcases h with rfl | ⟨spawner, -, habandoned⟩
  · rfl
  · unfold abandoned at habandoned
    obtain ⟨-, hlaunched⟩ := Option.ite_none_right_eq_some.1 habandoned
    rw [← Option.some.inj hlaunched]
    exact hsee.initialised g.forwarded _

/-- In every operation but a call from outside nodes are called with the roles that they had, and
processed with empty outputs. -/
theorem finds_of_mem_calls (hg : g.Consistent t) (hstaffed : g.Staffed)
    (husual : ∀ id role, g.role? id = some role → role.ResetsUsually)
    (hcall : ∀ phase node, operation ≠ .call phase node) (h : c ∈ operation.calls g) :
    ∃ g', operation.Passes g g' ∧ g'.Finds c := by
  have hp := hg.represents.wellFormed
  cases operation with
  | call phase node => exact absurd rfl (hcall phase node)
  | iterate subgraph =>
    simp only [Operation.calls] at h
    cases hrun : g.run? subgraph with
    | none =>
      rw [hrun] at h
      cases h
    | some run =>
      rw [hrun, Option.elim_some, callsIterate] at h
      split at h
      · cases h
      · obtain ⟨-, runs, hruns, hmem⟩ := run?_eq_some hrun
        have hnodup : run.order.Nodup := (hstaffed.perm_order hruns hmem).nodup_iff.2 (hp.nodup _)
        have hroles : (g.caughtUp run).role? = g.role? := funext (role?_caughtUp g run)
        have hsteps := lasts_shapes.steps (steps_caughtUp g run)
        have hshapes : (g.caughtUp run).shapeOf = g.shapeOf := shapeOf_congr hsteps
        have hfinds := finds_of_mem_callsCycle (hroles ▸ husual) hnodup h
        exact ⟨g, .inl rfl, hfinds.congr hroles hshapes⟩
  | start spawner =>
    have hlaunch {runs : List Run} (hplans : g.Plans runs)
        (h : c ∈ g.forwarded.callsLaunch (granted spawner runs)) : g.Finds c := by
      have hnodup := ((granted_sublist spawner runs).flatMap Run.order).nodup (hplans.nodup hp)
      exact (finds_of_mem_callsLaunch hnodup h).congr rfl rfl
    rcases g.calls_start spawner with
      ⟨hnone, -⟩ | ⟨runs, hplans, ⟨hcalls, -⟩ | ⟨hcalls, habandoned, -⟩⟩
    · rw [Operation.calls, hnone] at h
      cases h
    · rw [Operation.calls, hcalls] at h
      exact ⟨g, .inl rfl, hlaunch hplans h⟩
    · rw [Operation.calls, hcalls] at h
      rcases List.mem_append.1 h with hinit | hdestroy
      · exact ⟨g, .inl rfl, hlaunch hplans hinit⟩
      · refine ⟨_, .inr ⟨spawner, rfl, habandoned⟩, finds_of_mem_callsStop ?_ hdestroy⟩
        rw [away_of_initialised]
        exact ((granted_sublist spawner runs).flatMap Run.order).nodup (hplans.nodup hp)
  | stop => exact ⟨g, .inl rfl, finds_of_mem_callsStop (hstaffed.nodup_away hp) h⟩
  | add _ _ | addQueue _ _ | changeQueue _ _ | connect _ | bind _ _ _ _ | unbindAll | post _
  | postThrough _ _ | access _ _ _ => cases h

/-! ## Nodes that mind the ends of queues -/

/-- A graph in which nodes with a state have the usual reset and use no queue of a bridge. -/
structure Modest (g : Graph σ ω) (bridges : List Bridge) : Prop where
  resets : ∀ id state, g.role? id = some (.custom state) → (Role.custom state).ResetsUsually
  spares : ∀ id state, g.role? id = some (.custom state) → ∀ phase thread,
    ((Role.custom state).perform phase thread).Within
      ⟨fun _ ↦ True, fun queue ↦ ∀ b ∈ bridges, b.queue ≠ queue⟩ fun _ ↦ True

/-- A graph in which a bridge has its ends at their places, or no ends yet. -/
structure Anchors (g : Graph σ ω) (b : Bridge) : Prop where
  writer : ∀ id, g.role? id = some (.writer b.queue) → id = b.writer
  reader : ∀ id, g.role? id = some (.reader b.queue) → id = b.reader
  role : ∀ role, g.role? b.reader = some role → role = .reader b.queue
  output : ∀ role, g.role? b.reader = some role →
    ∃ type, g.shapeOf ⟨b.reader, 0⟩ = some (.output type)

omit [Behaviour σ ω] in
theorem Anchors.congr (h : g.Anchors b)
    (hseen : seen (fun n ↦ n.role.adapter?) g' = seen (fun n ↦ n.role.adapter?) g)
    (hshape : g'.shapeOf = g.shapeOf) : g'.Anchors b := by
  have hrole (id : NodeId) {role : Role σ} (hidden : role.isHidden = true) :
      g'.role? id = some role ↔ g.role? id = some role := by
    rw [role?_eq_some_iff_seen hidden, role?_eq_some_iff_seen hidden, hseen]
  have hthere {role' : Role σ} (hrole' : g'.role? b.reader = some role') :
      g.role? b.reader = some (.reader b.queue) := by
    have hsome : (seen (fun n ↦ n.role.adapter?) g' b.reader).isSome := by
      obtain ⟨slot, hslot, -⟩ := Option.map_eq_some_iff.1 hrole'
      rw [seen, hslot]
      rfl
    rw [hseen] at hsome
    obtain ⟨slot, hslot, -⟩ := Option.map_eq_some_iff.1 (Option.some_get hsome).symm
    rw [role?_of_slot? hslot, h.role _ (role?_of_slot? hslot)]
  constructor
  case writer => exact fun id hid ↦ h.writer id ((hrole id rfl).1 hid)
  case reader => exact fun id hid ↦ h.reader id ((hrole id rfl).1 hid)
  case role =>
    intro role hreader
    exact Option.some.inj (hreader.symm.trans ((hrole b.reader rfl).2 (hthere hreader)))
  case output =>
    intro role hreader
    rw [hshape]
    exact h.output _ (hthere hreader)

/-- Whether an operation leaves it to connections to attach inputs, and to threads to call readers
and to change what the queues of bridges hold. -/
def Operation.Respects (bridges : List Bridge) : Operation σ ω → Prop
  | .access _ ports _ => ∀ ps, frames (ports ps) = frames ps
  | .call _ node => ∀ b ∈ bridges, b.reader ≠ node
  | .changeQueue queue _ => ∀ b ∈ bridges, b.queue ≠ queue
  | _ => True

theorem Modest.usual (h : g.Modest bridges) (id : NodeId) (role : Role σ)
    (hrole : g.role? id = some role) : role.ResetsUsually := by
  cases role with
  | custom state => exact h.resets id state hrole
  | writer queue | reader queue => exact Role.resetsUsually_of_isHidden rfl

/-- In such a graph nobody uses the queue of a bridge but its writers and readers, each at its own
end. -/
theorem Modest.uses (h : g.Modest bridges) (hb : b ∈ bridges)
    (hrole : c.graph.role? c.node = g.role? c.node) : ∀ t ∈ c.transfers, t.queue = b.queue →
      g.role? c.node = some (.writer b.queue) ∧ t.isOffer = true ∨
        g.role? c.node = some (.reader b.queue) ∧ t.isOffer = false := by
  intro t ht hqueue
  rw [Call.transfers, transfersOf] at ht
  cases hslot : c.graph.slot? c.node with
  | none =>
    rw [hslot] at ht
    cases ht
  | some slot =>
    rw [hslot, Option.elim_some] at ht
    have hrole : g.role? c.node = some slot.node.role := by
      rw [← hrole, role?_of_slot? hslot]
    rw [hrole, ← hqueue]
    cases hidden : slot.node.role.isHidden with
    | true =>
      exact (Role.uses_of_isHidden _ hidden _ _ _ t ht).imp (And.imp_left (congrArg some))
        (And.imp_left (congrArg some))
    | false =>
      cases hnode : slot.node.role with
      | custom state =>
        rw [hnode] at ht hrole
        have hspares := h.spares c.node state hrole c.phase c.thread
        exact absurd hqueue.symm (hspares.uses_transfers _ _ t ht b hb)
      | writer queue | reader queue =>
        rw [hnode] at hidden
        cases hidden

/-- Calls in such graphs mind the ends of a bridge. -/
theorem Anchors.minds (h : g.Anchors b) (hmodest : g.Modest bridges) (hb : b ∈ bridges)
    (hrole : c.graph.role? c.node = g.role? c.node)
    (hempty : c.phase = .process → c.node = b.reader → ∀ slot,
      c.graph.slot? c.node = some slot → ∃ type,
        slot.node.ports[0]? = some (.output (.ofType type))) : c.Minds b := by
  constructor
  case uses =>
    intro t ht hqueue
    exact (hmodest.uses hb hrole t ht hqueue).imp (And.imp_left (h.writer c.node))
      (And.imp_left (h.reader c.node))
  case publishes =>
    intro hnode
    rw [Call.transfers, transfersOf, Call.events, eventsOf]
    cases hslot : c.graph.slot? c.node with
    | none => rfl
    | some slot =>
      have hreader : slot.node.role = .reader b.queue := by
        refine h.role _ ?_
        rw [← hnode, ← hrole, role?_of_slot? hslot]
      rw [Option.elim_some, Option.elim_some, hreader]
      by_cases hphase : c.phase = .process
      · obtain ⟨type, hport⟩ := hempty hphase hnode slot hslot
        rw [hphase, Role.transfers_perform_reader, Role.stored_perform_reader _ _ _ hport,
          Transfer.taken_singleton]
      · have hidden : (Role.reader b.queue : Role σ).isHidden = true := rfl
        have hnothing := Role.perform_of_ne_process c.graph.published hidden hphase c.thread
          ⟨slot.node.ports, c.graph.queues⟩ 0
        rw [hnothing.1, hnothing.2]
        rfl

/-- The calls of an operation use the queue of a bridge for nodes that were put in for it, and mind
its ends. -/
theorem minds_of_mem_calls (hg : g.Consistent t) (hstaffed : g.Staffed)
    (hmodest : ∀ g', operation.Passes g g' → g'.Modest bridges) (h : g.Anchors b)
    (hb : b ∈ bridges) (hrespects : operation.Respects bridges) :
    ∀ c ∈ operation.calls g,
      (∀ t ∈ c.transfers, t.queue = b.queue → g.queueOf c.node = some b.queue) ∧ c.Minds b := by
  intro c hc
  have huses {g' : Graph σ ω} (hpasses : operation.Passes g g')
      (hrole : c.graph.role? c.node = g'.role? c.node) :
      ∀ t ∈ c.transfers, t.queue = b.queue → g.queueOf c.node = some b.queue := by
    intro t ht hqueue
    rw [queueOf_eq_seen, ← hpasses.seen_eq lasts_adapter, ← queueOf_eq_seen, queueOf]
    rcases (hmodest g' hpasses).uses hb hrole t ht hqueue with ⟨hend, -⟩ | ⟨hend, -⟩
    all_goals rw [hend]; rfl
  by_cases hcall : ∃ phase node, operation = .call phase node
  · obtain ⟨phase, node, rfl⟩ := hcall
    simp only [Operation.calls] at hc
    split at hc
    · obtain rfl := List.mem_singleton.1 hc
      refine ⟨huses (.inl rfl) rfl, h.minds (hmodest g (.inl rfl)) hb rfl fun _ hnode ↦ ?_⟩
      exact absurd hnode.symm (hrespects b hb)
    · cases hc
  · have hcall : ∀ phase node, operation ≠ .call phase node :=
      fun phase node heq ↦ hcall ⟨phase, node, heq⟩
    obtain ⟨g', hpasses, hfinds⟩ :=
      finds_of_mem_calls hg hstaffed (hmodest g (.inl rfl)).usual hcall hc
    have hanchors : g'.Anchors b :=
      h.congr (hpasses.seen_eq lasts_adapter) (shapeOf_congr (hpasses.seen_eq lasts_shapes))
    refine ⟨huses hpasses hfinds.role,
      hanchors.minds (hmodest g' hpasses) hb hfinds.role fun hphase hnode slot hslot ↦ ?_⟩
    have hrole : g'.role? b.reader = some slot.node.role := by
      rw [← hnode, ← hfinds.role, role?_of_slot? hslot]
    obtain ⟨type, hshape⟩ := hanchors.output _ hrole
    exact ⟨type, hfinds.empty hphase hslot (hnode ▸ hshape)⟩

end Graph

end SignalFlow
