import SignalFlow.Proofs.Graph.Couplings
import SignalFlow.Proofs.Graph.Subgraphs

/-!
# Histories that tell what queues hold

The writer of a connection by a queue reads an output of the source, and the reader has an output;
both stay where they are. So in every graph on the way to the present one calls mind the ends of a
queue that is there, and nobody uses one that is not there yet. Since a new queue is empty, the
transfers of the whole history lead from the empty queue to the present one.
-/

namespace SignalFlow.Graph

variable {σ ω : Type} [Behaviour σ ω] {g g' : Graph σ ω} {t : Topology} {b : Bridge}
  {bridges : List Bridge} {source target ref : PortRef} {calls : List (Call σ ω)}
  {operation : Operation σ ω}

/-- A graph in which the writer of a bridge reads an output of the source, and the reader has an
output. -/
structure Plugged (g : Graph σ ω) (b : Bridge) : Prop where
  writer : ∃ port, g.sourceOf ⟨b.writer, 0⟩ = some ⟨b.source, port⟩
  reader : ∃ type, g.shapeOf ⟨b.reader, 0⟩ = some (.output type)

omit [Behaviour σ ω] in
theorem sourceOf_connectPorts_of_some (h : g.connectPorts source target = .ok g') {other : PortRef}
    (hsource : g.sourceOf ref = some other) : g'.sourceOf ref = some other := by
  obtain ⟨hfree, hall⟩ := sourceOf_connectPorts h
  rw [hall, if_neg, hsource]
  intro heq
  rw [heq, hfree] at hsource
  cases hsource

theorem sourceOf_withAdapters (g : Graph σ ω) (type : DataType) (capacity : Nat) :
    (g.withAdapters type capacity).sourceOf = g.sourceOf := by
  have hqueue : g.Works (g.addQueue type capacity).2 := .withQueues g _
  exact ((hqueue.trans (.push _ (Adapter.writerPorts type) (.writer ⟨g.queues.length⟩))).trans
    (.push _ (Adapter.readerPorts type) (.reader ⟨g.queues.length⟩))).sourceOf

theorem shapeOf_withAdapters (g : Graph σ ω) (type : DataType) (capacity : Nat) :
    (g.withAdapters type capacity).shapeOf ⟨⟨g.nodeCount + 1⟩, 0⟩ = some (.output type) := by
  have hcount : ((g.addQueue type capacity).2.push (Adapter.writerPorts type)
      (.writer ⟨g.queues.length⟩)).2.nodeCount = g.nodeCount + 1 := List.length_append ..
  rw [shapeOf_eq_seen, withAdapters, seen_push, hcount, if_pos rfl]
  rfl

namespace Plugged

theorem result (h : g.Plugged b) {attempt : Attempt} {c : Connection}
    (hok : attempt.result g = .ok (c, g')) : g'.Plugged b := by
  obtain ⟨⟨port, hport⟩, ⟨type, hshape⟩⟩ := h
  rcases attempt.result_cases hok with
    ⟨source, target, -, hports⟩ | ⟨source, target, capacity, queue, -, hports⟩
  · exact ⟨⟨port, sourceOf_connectPorts_of_some hports hport⟩,
      ⟨type, by rwa [shapeOf_connectPorts hports]⟩⟩
  · refine ⟨⟨port, ?_⟩, ⟨type, shapeOf_connectQueuedPorts hports hshape⟩⟩
    obtain ⟨-, -, -, -, made, g₁, g₂, hwriter, hreader, _, _, -, -, rfl⟩ :=
      connectQueuedPorts_eq_ok hports
    refine sourceOf_connectPorts_of_some hreader (sourceOf_connectPorts_of_some hwriter ?_)
    rwa [sourceOf_withAdapters]

/-- A connection by a queue plugs its own bridge in. -/
theorem connectQueuedPorts {capacity : Nat} {queue : QueueId}
    (hok : g.connectQueuedPorts source target capacity = .ok (queue, g')) :
    g'.Plugged (g.bridgeOf source.node target.node queue) := by
  obtain ⟨-, -, -, -, type, g₁, g₂, hwriter, hreader, _, _, -, -, rfl⟩ :=
    connectQueuedPorts_eq_ok hok
  constructor
  · have hfirst : g₁.sourceOf ⟨⟨g.nodeCount⟩, 0⟩ = some source := by
      rw [(sourceOf_connectPorts hwriter).2, if_pos rfl]
    exact ⟨source.port, sourceOf_connectPorts_of_some hreader hfirst⟩
  · refine ⟨type, ?_⟩
    change g₂.shapeOf _ = _
    rw [shapeOf_connectPorts hreader, shapeOf_connectPorts hwriter]
    exact shapeOf_withAdapters g type capacity

end Plugged

omit [Behaviour σ ω] in
theorem Operation.Respects.rewiresNothing (h : operation.Respects bridges) :
    operation.RewiresNothing := by
  cases operation with
  | access node ports state => exact fun ps ↦ sources_congr (h ps)
  | _ => trivial

omit [Behaviour σ ω] in
theorem Operation.Respects.keepsPorts (h : operation.Respects bridges) (g : Graph σ ω)
    (node : NodeId) : operation.KeepsPorts g node := by
  cases operation with
  | access id ports state =>
    exact fun _ slot _ ↦ congrArg (List.map Frame.detached) (h slot.node.ports)
  | _ => trivial

theorem plugged_after (options : Options) {operations : List (Operation σ ω)}
    (hrespects : ∀ operation ∈ operations, operation.Respects bridges) :
    ∀ b ∈ ((empty options).accepted operations).bridges,
      ((empty options).after operations).Plugged b := by
  refine (consistent_empty options).preserved
    (P := fun g t ↦ ∀ b ∈ t.bridges, g.Plugged b) (fun operation hmem g t hg h ↦ ?_) nofun
  rcases operation.apply_cases g with ⟨hmade, -⟩ | ⟨attempt, c, hmade, hok⟩
  · rw [hmade, List.append_nil]
    intro b hb
    obtain ⟨⟨port, hport⟩, ⟨type, hshape⟩⟩ := h b hb
    refine ⟨⟨port, ?_⟩, ⟨type, ?_⟩⟩
    · rwa [Operation.sourceOf_apply g (hrespects operation hmem).rewiresNothing hmade]
    · exact Operation.shapeOf_apply ((hrespects operation hmem).keepsPorts g _) hshape
  · rw [hmade]
    rcases attempt.result_cases hok with
      ⟨source, target, rfl, hports⟩ | ⟨source, target, capacity, queue, rfl, hports⟩
    · rw [Topology.bridges_direct]
      exact fun b hb ↦ (h b hb).result hok
    · rw [Topology.bridges_queued]
      refine List.forall_mem_append.2 ⟨fun b hb ↦ (h b hb).result hok, ?_⟩
      rintro b hb
      obtain rfl := List.mem_singleton.1 hb
      exact .connectQueuedPorts hports

/-- The ends and the queue of a bridge come with its connection. -/
theorem Consistent.new_of_mem_bridges (hg : g.Consistent t) {operations : List (Operation σ ω)}
    (hb : b ∈ (g.accepted operations).bridges) :
    g.nodeCount ≤ b.reader.index ∧ g.queues.length ≤ b.queue.index := by
  induction operations generalizing g t with
  | nil => cases hb
  | cons operation rest ih =>
    have hmono (h : g.Grows (operation.apply g))
        (hb : b ∈ ((operation.apply g).accepted rest).bridges) :
        g.nodeCount ≤ b.reader.index ∧ g.queues.length ≤ b.queue.index :=
      (ih (hg.apply operation) hb).imp h.nodeCount_le.trans h.queues_le.trans
    rw [accepted, Topology.bridges, List.filterMap_append] at hb
    rcases operation.apply_cases g with ⟨hmade, hsame⟩ | ⟨attempt, c, hmade, hok⟩
    · rw [hmade] at hb
      exact hmono hsame.toGrows hb
    · rw [hmade] at hb
      rcases List.mem_append.1 hb with hnew | hlater
      · rcases attempt.result_cases hok with
          ⟨source, target, rfl, -⟩ | ⟨source, target, capacity, queue, rfl, hports⟩
        · cases hnew
        · obtain ⟨-, -, -, rfl, -⟩ := connectQueuedPorts_eq_ok hports
          obtain rfl := List.mem_singleton.1 hnew
          exact ⟨Nat.le_succ _, le_rfl⟩
      · exact hmono (hg.extends_result hok).toGrows hlater

/-- In every graph on the way to the present one a bridge has its ends at their places, or no ends
yet. -/
theorem anchors_after (options : Options) {past more : List (Operation σ ω)}
    (hrespects : ∀ operation ∈ past, operation.Respects bridges)
    (hb : b ∈ ((empty options).accepted (past ++ more)).bridges) :
    ((empty options).after past).Anchors b := by
  have hg := consistent_after options past
  have hspanned := spanned_after options past
  have hsplit : ((empty options).accepted (past ++ more)).bridges =
      ((empty options).accepted past).bridges ++
        (((empty options).after past).accepted more).bridges := by
    rw [accepted_append, Topology.bridges, List.filterMap_append]
    rfl
  -- All bridges of the present have different queues.
  have hsame : ∀ b' ∈ ((empty options).accepted past).bridges, b'.queue = b.queue → b' = b := by
    have hnodup := (consistent_after options (past ++ more)).nodup_queues
    exact fun b' hb' ↦ List.inj_on_of_nodup_map hnodup (hsplit ▸ List.mem_append_left _ hb') hb
  have hreader : ∀ role, ((empty options).after past).role? b.reader = some role →
      role = .reader b.queue ∧ b ∈ ((empty options).accepted past).bridges := by
    intro role hrole
    rw [hsplit] at hb
    rcases List.mem_append.1 hb with hold | hnew
    · rw [(hg.adapters b hold).2] at hrole
      exact ⟨(Option.some.inj hrole).symm, hold⟩
    · obtain ⟨slot, hslot, -⟩ := Option.map_eq_some_iff.1 hrole
      have hlt := (List.getElem?_eq_some_iff.1 hslot).1
      exact absurd hlt (hg.new_of_mem_bridges hnew).1.not_gt
  constructor
  case writer =>
    intro id hrole
    obtain ⟨b', hb', ⟨hid, hqueue⟩ | ⟨-, hqueue⟩⟩ := hspanned.of_role? hrole rfl
    · rw [hid, hsame b' hb' (Role.writer.inj hqueue).symm]
    · cases hqueue
  case reader =>
    intro id hrole
    obtain ⟨b', hb', ⟨-, hqueue⟩ | ⟨hid, hqueue⟩⟩ := hspanned.of_role? hrole rfl
    · cases hqueue
    · rw [hid, hsame b' hb' (Role.reader.inj hqueue).symm]
  case role => exact fun role hrole ↦ (hreader role hrole).1
  case output =>
    exact fun role hrole ↦ (plugged_after options hrespects b (hreader role hrole).2).reader

/-- Calls that tell what a queue holds: they mind its ends, and their transfers lead from the empty
queue to the present one. -/
structure Recounts (g : Graph σ ω) (calls : List (Call σ ω)) (b : Bridge) : Prop where
  minds : ∀ c ∈ calls, c.Minds b
  unused : g.queue? b.queue = none → ∀ t ∈ transfersIn calls, t.queue ≠ b.queue
  leads : ∀ q, g.queue? b.queue = some q →
    Transfer.Obey b.queue ⟨[], q.queue.capacity⟩ (transfersIn calls) ∧
      q.queue = (transfersIn calls).foldl (Transfer.leave b.queue) ⟨[], q.queue.capacity⟩

theorem Recounts.apply (h : g.Recounts calls b) {operation : Operation σ ω}
    (hg : g.Consistent t) (hspanned : g.Spanned t) (hstaffed : g.Staffed)
    (hmodest : ∀ g', operation.Passes g g' → g'.Modest bridges)
    (hanchors : g.Anchors b) (hb : b ∈ bridges) (hrespects : operation.Respects bridges) :
    (operation.apply g).Recounts (calls ++ operation.calls g) b := by
  have hminds := minds_of_mem_calls hg hstaffed hmodest hanchors hb hrespects
  -- Without the queue there are no ends of it, so that nobody uses it.
  have hunused (hnone : g.queue? b.queue = none) :
      ∀ t ∈ transfersIn (calls ++ operation.calls g), t.queue ≠ b.queue := by
    rw [transfersIn_append]
    refine List.forall_mem_append.2 ⟨h.unused hnone, fun t ht hqueue ↦ ?_⟩
    obtain ⟨c, hc, ht⟩ := List.mem_flatMap.1 ht
    obtain ⟨b', hb', heq, -⟩ := hspanned.exists_end ((hminds c hc).1 t ht hqueue)
    have hlt := hg.queue_lt b' hb'
    rw [heq] at hlt
    exact absurd hlt (List.getElem?_eq_none_iff.1 hnone).not_gt
  have hmoves : Moves b.queue g (transfersIn (operation.calls g)) (operation.apply g) := by
    refine Moves.apply hg.represents.wellFormed fun change heq ↦ ?_
    rw [heq] at hrespects
    exact hrespects b hb rfl
  constructor
  case minds => exact List.forall_mem_append.2 ⟨h.minds, fun c hc ↦ (hminds c hc).2⟩
  case unused =>
    intro hnone
    cases hqueue : g.queue? b.queue with
    | none => exact hunused hqueue
    | some before =>
      rw [(hmoves before hqueue).2] at hnone
      cases hnone
  case leads =>
    intro q hq
    cases hqueue : g.queue? b.queue with
    | none =>
      have hempty : q.queue = ⟨[], q.queue.capacity⟩ := by rw [← items_of_new hqueue hq]
      exact ⟨.of_ne (hunused hqueue) _, by rwa [Transfer.foldl_leave_of_ne (hunused hqueue)]⟩
    | some before =>
      obtain ⟨hobey, hheld⟩ := h.leads before hqueue
      obtain ⟨hobey', hq'⟩ := hmoves before hqueue
      obtain rfl := Option.some.inj (hq'.symm.trans hq)
      dsimp only
      rw [transfersIn_append, List.foldl_append, Transfer.capacity_foldl_leave]
      refine ⟨hobey.append ?_, ?_⟩
      · rwa [← hheld]
      · rw [← hheld]

/-- The history of a graph tells what the queue of a bridge holds. -/
theorem recounts_after (options : Options) {operations past more : List (Operation σ ω)}
    (hsplit : operations = past ++ more)
    (hrespects : ∀ operation ∈ operations,
      operation.Respects ((empty options).accepted operations).bridges)
    (hmodest : ∀ past, past <+: operations →
      ((empty options).after past).Modest ((empty options).accepted operations).bridges)
    (habandoned : ∀ past spawner g', past ++ [.start spawner] <+: operations →
      ((empty options).after past).abandoned spawner = some g' →
        g'.Modest ((empty options).accepted operations).bridges)
    (hb : b ∈ ((empty options).accepted operations).bridges) :
    ((empty options).after past).Recounts ((empty options).history past) b := by
  induction past using List.reverseRecOn generalizing more with
  | nil => exact ⟨nofun, fun _ ↦ nofun, nofun⟩
  | append_singleton past operation ih =>
    rw [List.append_assoc] at hsplit
    have hpast : ∀ earlier ∈ past, earlier ∈ operations := by
      rw [hsplit]
      exact fun earlier ↦ List.mem_append_left _
    have hmem : operation ∈ operations := by simp [hsplit]
    have hanchors : ((empty options).after past).Anchors b :=
      anchors_after options (fun earlier hearlier ↦ hrespects earlier (hpast earlier hearlier))
        (hsplit ▸ hb)
    have hpasses (g' : Graph σ ω) (h : operation.Passes ((empty options).after past) g') :
        g'.Modest ((empty options).accepted operations).bridges := by
      rcases h with rfl | ⟨spawner, rfl, hsome⟩
      · exact hmodest past ⟨_, hsplit.symm⟩
      · refine habandoned past spawner g' ⟨more, ?_⟩ hsome
        rw [hsplit, List.append_assoc]
    rw [after_append]
    have hstep := (ih hsplit).apply (consistent_after options past) (spanned_after options past)
      (staffed_after options past) hpasses hanchors hb (hrespects operation hmem)
    have hsingle : ((empty options).after past).history [operation] =
        operation.calls ((empty options).after past) := List.append_nil _
    rw [history_append, hsingle]
    exact hstep

end SignalFlow.Graph
