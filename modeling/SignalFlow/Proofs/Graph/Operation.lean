import SignalFlow.Proofs.Graph.Connecting

/-!
# Operations on a graph

A graph is built and run by operations in any order. One that is refused changes nothing. Beside
the graph goes the topology, the list of the connections that were accepted so far. In every
graph that operations make out of an empty one, the partition represents this topology, which is
lawful.
-/

namespace SignalFlow.Graph

open Control

variable {σ ω : Type} {g g' : Graph σ ω} {t : Topology} {c : Connection}

/-- A call that asks for a connection, with the usual ports or capacity or with given ones. -/
inductive Attempt where
  | connect (source target : NodeId)
  | connectPorts (source target : PortRef)
  | connectQueued (source target : NodeId)
  | connectQueuedWithCapacity (source target : NodeId) (capacity : Nat)
  | connectQueuedPorts (source target : PortRef) (capacity : Nat)

/-- What comes of an attempt: the connection that was made, and the graph behind. -/
def Attempt.result [Behaviour σ ω] (g : Graph σ ω) :
    Attempt → Except GraphError (Connection × Graph σ ω)
  | .connect source target => (g.connect source target).map (.direct source target, ·)
  | .connectPorts source target =>
    (g.connectPorts source target).map (.direct source.node target.node, ·)
  | .connectQueued source target =>
    (g.connectQueued source target).map fun (queue, g') ↦
      (.queued (g.bridgeOf source target queue), g')
  | .connectQueuedWithCapacity source target capacity =>
    (g.connectQueuedWithCapacity source target capacity).map fun (queue, g') ↦
      (.queued (g.bridgeOf source target queue), g')
  | .connectQueuedPorts source target capacity =>
    (g.connectQueuedPorts source target capacity).map fun (queue, g') ↦
      (.queued (g.bridgeOf source.node target.node queue), g')

/-- What is done to a graph from outside, and the iterations of its threads. -/
inductive Operation (σ ω : Type) where
  | add (ports : List (PortSpec ω)) (state : σ)
  | addQueue (type : DataType) (capacity : Nat)
  | changeQueue (queue : QueueId) (change : Queue Datum → Queue Datum)
  | connect (attempt : Attempt)
  | bind (ref : PortRef) (name : String) (storage : Storage)
      (validator : Option (Validator storage))
  | unbindAll
  | post (updates : Updates)
  | postThrough (handle : Handle) (updates : Updates)
  /-- Calls a node that is at home. -/
  | call (phase : Phase) (node : NodeId)
  /-- Changes the ports and the state of a node that is at home. -/
  | access (node : NodeId) (ports : List (Port PortRef ω) → List (Port PortRef ω))
      (state : σ → σ)
  | start (spawner : Spawner)
  | iterate (subgraph : SubgraphId)
  | stop

/-- The role with another state, if it has one. -/
def changeState (change : σ → σ) : Role σ → Role σ
  | .custom state => .custom (change state)
  | .writer queue => .writer queue
  | .reader queue => .reader queue

def Operation.apply [Behaviour σ ω] (g : Graph σ ω) : Operation σ ω → Graph σ ω
  | .add ports state => (g.add ports state).2
  | .addQueue type capacity => (g.addQueue type capacity).2
  | .changeQueue queue change => g.modifyQueue queue change
  | .connect attempt => ((attempt.result g).toOption.map (·.2)).getD g
  | .bind ref name storage validator => (g.bind ref name storage validator).toOption.getD g
  | .unbindAll => g.unbindAll.toOption.getD g
  | .post updates => (g.post updates).1
  | .postThrough handle updates => (g.postThrough handle updates).1
  | .call phase node => if (g.node node).toBool then (g.call phase none node).1 else g
  | .access node ports state =>
    if (g.node node).toBool then
      g.modifyNode node fun n ↦ ⟨ports n.ports, changeState state n.role⟩
    else g
  | .start spawner => (g.start spawner).1
  | .iterate subgraph => (g.run? subgraph).elim g fun run ↦ (g.iterate run).1
  | .stop => g.stop.1

/-- The connection that an operation makes, if any. -/
def Operation.made [Behaviour σ ω] (g : Graph σ ω) : Operation σ ω → Topology
  | .connect attempt => ((attempt.result g).toOption.map (·.1)).toList
  | _ => []

def after [Behaviour σ ω] (g : Graph σ ω) (operations : List (Operation σ ω)) : Graph σ ω :=
  operations.foldl Operation.apply g

/-- The connections that operations make. -/
def accepted [Behaviour σ ω] (g : Graph σ ω) : List (Operation σ ω) → Topology
  | [] => []
  | operation :: rest => operation.made g ++ (operation.apply g).accepted rest

/-- A graph with the topology of the connections that were accepted. -/
structure Consistent (g : Graph σ ω) (t : Topology) : Prop where
  represents : g.partition.Represents t
  lawful : t.Lawful
  known : ∀ e ∈ t.edges, e.1.index < g.nodeCount ∧ e.2.index < g.nodeCount
  adapters : ∀ b ∈ t.bridges,
    g.role? b.writer = some (.writer b.queue) ∧ g.role? b.reader = some (.reader b.queue)
  queue_lt : ∀ b ∈ t.bridges, b.queue.index < g.queues.length
  nodup_queues : (t.bridges.map Bridge.queue).Nodup

theorem consistent_empty (options : Options) : (empty options : Graph σ ω).Consistent [] where
  represents := Partition.represents_empty
  lawful := ⟨nofun, nofun⟩
  known := nofun
  adapters := nofun
  queue_lt := nofun
  nodup_queues := List.nodup_nil

namespace Consistent

theorem index_lt (h : g.Consistent t) {node : NodeId} {s : SubgraphId}
    (hs : g.partition.of node = some s) : node.index < g.nodeCount := by
  have hmem := h.represents.tracks.mem_support.2 ⟨s, hs⟩
  obtain ⟨other, hadj⟩ := (SimpleGraph.mem_support _).1 hmem
  rcases ((SimpleGraph.fromRel_adj ..).1 hadj).2 with hedge | hedge
  · exact (h.known _ hedge).1
  · exact (h.known _ hedge).2

theorem sameTopology (h : g.Consistent t) (hg : g.SameTopology g') : g'.Consistent t where
  represents := h.represents.congr hg.partition.sameDivision
  lawful := h.lawful
  known e he := (h.known e he).imp hg.nodeCount_le.trans_lt' hg.nodeCount_le.trans_lt'
  adapters b hb := (h.adapters b hb).imp (hg.hidden rfl) (hg.hidden rfl)
  queue_lt b hb := (h.queue_lt b hb).trans_le hg.queues_le
  nodup_queues := h.nodup_queues

theorem connected (h : g.Consistent t) (hg : g.Extends c g') : g'.Consistent (t ++ [c]) := by
  have hextend := h.represents.extend h.lawful hg.allows
  have hedges : Topology.edges (t ++ [c]) = t.edges ++ c.edges := by simp [Topology.edges]
  have hbridges : Topology.bridges (t ++ [c]) = t.bridges ++ c.bridge?.toList := by
    rcases hc : c.bridge? with _ | b <;> simp [Topology.bridges, hc]
  constructor
  case represents => exact hg.partition ▸ hextend.1
  case lawful => exact hextend.2
  case known =>
    intro e he
    rw [hedges, List.mem_append] at he
    rcases he with he | he
    · exact (h.known e he).imp hg.nodeCount_le.trans_lt' hg.nodeCount_le.trans_lt'
    · exact hg.known e he
  case adapters =>
    intro b hb
    rw [hbridges, List.mem_append, Option.mem_toList] at hb
    rcases hb with hb | hb
    · exact (h.adapters b hb).imp (hg.hidden rfl) (hg.hidden rfl)
    · exact hg.adapters b hb
  case queue_lt =>
    intro b hb
    rw [hbridges, List.mem_append, Option.mem_toList] at hb
    rcases hb with hb | hb
    · exact (h.queue_lt b hb).trans_le hg.queues_le
    · exact (hg.queue b hb).2
  case nodup_queues =>
    -- The new queue is numbered behind all that were there.
    rw [hbridges, List.map_append, List.nodup_append]
    refine ⟨h.nodup_queues, by cases c.bridge? <;> simp, ?_⟩
    intro queue hold queue' hnew heq
    obtain ⟨b, hb, rfl⟩ := List.mem_map.1 hold
    obtain ⟨b', hb', rfl⟩ := List.mem_map.1 hnew
    have hle := (hg.queue b' (Option.mem_toList.1 hb')).1
    rw [← heq] at hle
    exact absurd (h.queue_lt b hb) hle.not_gt

end Consistent

section Step

variable [Behaviour σ ω]

/-- Every connection is made between ports. -/
theorem Attempt.result_cases {attempt : Attempt} (hok : attempt.result g = .ok (c, g')) :
    (∃ source target : PortRef, c = .direct source.node target.node ∧
      g.connectPorts source target = .ok g') ∨
    ∃ (source target : PortRef) (capacity : Nat) (queue : QueueId),
      c = .queued (g.bridgeOf source.node target.node queue) ∧
        g.connectQueuedPorts source target capacity = .ok (queue, g') := by
  have husual {source target : NodeId} {capacity : Nat} {queue : QueueId}
      (hok : g.connectQueuedWithCapacity source target capacity = .ok (queue, g')) :
      ∃ (output input : PortRef) (capacity : Nat) (queue' : QueueId),
        Connection.queued (g.bridgeOf source target queue) =
          .queued (g.bridgeOf output.node input.node queue') ∧
        g.connectQueuedPorts output input capacity = .ok (queue', g') := by
    obtain ⟨output, input, rfl, rfl, hports⟩ := exists_connectQueuedPorts hok
    exact ⟨output, input, capacity, queue, rfl, hports⟩
  cases attempt with
  | connect source target =>
    obtain ⟨g'', hok, heq⟩ := map_eq_ok_iff.1 hok
    cases heq
    obtain ⟨output, input, rfl, rfl, hports⟩ := exists_connectPorts hok
    exact .inl ⟨output, input, rfl, hports⟩
  | connectPorts source target =>
    obtain ⟨g'', hok, heq⟩ := map_eq_ok_iff.1 hok
    cases heq
    exact .inl ⟨source, target, rfl, hok⟩
  | connectQueued source target =>
    obtain ⟨⟨queue, g''⟩, hok, heq⟩ := map_eq_ok_iff.1 hok
    cases heq
    exact .inr (husual hok)
  | connectQueuedWithCapacity source target capacity =>
    obtain ⟨⟨queue, g''⟩, hok, heq⟩ := map_eq_ok_iff.1 hok
    cases heq
    exact .inr (husual hok)
  | connectQueuedPorts source target capacity =>
    obtain ⟨⟨queue, g''⟩, hok, heq⟩ := map_eq_ok_iff.1 hok
    cases heq
    exact .inr ⟨source, target, capacity, queue, rfl, hok⟩

theorem Consistent.extends_result (h : g.Consistent t) {attempt : Attempt}
    (hok : attempt.result g = .ok (c, g')) : g.Extends c g' := by
  rcases attempt.result_cases hok with
    ⟨source, target, rfl, hports⟩ | ⟨source, target, capacity, queue, rfl, hports⟩
  · exact extends_connectPorts h.represents.wellFormed hports
  · exact extends_connectQueuedPorts h.index_lt hports

/-! What is refused changes nothing. -/

theorem Operation.connect_cases (g : Graph σ ω) (attempt : Attempt) :
    (Operation.made g (.connect attempt) = [] ∧ Operation.apply g (.connect attempt) = g) ∨
      ∃ c, Operation.made g (.connect attempt) = [c] ∧
        attempt.result g = .ok (c, Operation.apply g (.connect attempt)) := by
  rcases hok : attempt.result g with e | ⟨c, g'⟩
  · left
    simp only [made, apply, hok]
    exact ⟨rfl, rfl⟩
  · right
    refine ⟨c, ?_⟩
    simp only [made, apply, hok]
    exact ⟨rfl, rfl⟩

theorem Operation.bind_cases (g : Graph σ ω) (ref : PortRef) (name : String) (storage : Storage)
    (validator : Option (Validator storage)) :
    Operation.apply g (.bind ref name storage validator) = g ∨
      g.bind ref name storage validator =
          .ok (g.bound name ⟨ref.node, ref.port, storage, validator⟩) ∧
        Operation.apply g (.bind ref name storage validator) =
          g.bound name ⟨ref.node, ref.port, storage, validator⟩ := by
  rcases hok : g.bind ref name storage validator with e | g'
  · left
    simp only [apply, hok]
    rfl
  · right
    obtain ⟨-, rfl⟩ := bind_eq_ok hok
    refine ⟨rfl, ?_⟩
    simp only [apply, hok]
    rfl

theorem Operation.unbindAll_cases (g : Graph σ ω) :
    Operation.apply g .unbindAll = g ∨ g.isRunning = false ∧
      Operation.apply g .unbindAll = { g with bindings := .empty } := by
  rcases hok : g.unbindAll with e | g'
  · left
    simp only [apply, hok]
    rfl
  · right
    obtain ⟨hstopped, rfl⟩ := unbindAll_eq_ok_iff.1 hok
    refine ⟨hstopped, ?_⟩
    simp only [apply, hok]
    rfl

/-- An operation keeps the topology, or makes one connection. -/
theorem Operation.apply_cases (g : Graph σ ω) (operation : Operation σ ω) :
    operation.made g = [] ∧ g.SameTopology (operation.apply g) ∨
      ∃ (attempt : Attempt) (c : Connection), operation.made g = [c] ∧
        attempt.result g = .ok (c, operation.apply g) := by
  cases operation with
  | connect attempt =>
    rcases Operation.connect_cases g attempt with ⟨hmade, hsame⟩ | ⟨c, hmade, hok⟩
    · exact .inl ⟨hmade, hsame.symm ▸ .refl g⟩
    · exact .inr ⟨attempt, c, hmade, hok⟩
  | add ports state => exact .inl ⟨rfl, .add g ports state⟩
  | addQueue type capacity => exact .inl ⟨rfl, .addQueue g type capacity⟩
  | changeQueue queue change => exact .inl ⟨rfl, .modifyQueue g queue change⟩
  | bind ref name storage validator =>
    refine .inl ⟨rfl, ?_⟩
    rcases Operation.bind_cases g ref name storage validator with hsame | ⟨-, hbound⟩
    · rw [hsame]
      exact .refl g
    · rw [hbound]
      exact .congr (.refl g) rfl rfl (.refl g.partition)
  | unbindAll =>
    refine .inl ⟨rfl, ?_⟩
    rcases Operation.unbindAll_cases g with hsame | ⟨-, hunbound⟩
    · rw [hsame]
      exact .refl g
    · rw [hunbound]
      exact .congr (.refl g) rfl rfl (.refl g.partition)
  | post updates => exact .inl ⟨rfl, .postThrough g g.handle updates⟩
  | postThrough handle updates => exact .inl ⟨rfl, .postThrough g handle updates⟩
  | call phase node =>
    refine .inl ⟨rfl, ?_⟩
    simp only [apply]
    split
    · exact .call g phase none node
    · exact .refl g
  | access node ports state =>
    refine .inl ⟨rfl, ?_⟩
    simp only [apply]
    split
    · refine .modifyNode g node fun slot _ hidden ↦ ?_
      cases hrole : slot.node.role with
      | custom state => rw [hrole] at hidden; cases hidden
      | writer queue => rfl
      | reader queue => rfl
    · exact .refl g
  | start spawner => exact .inl ⟨rfl, .start g spawner⟩
  | iterate subgraph =>
    refine .inl ⟨rfl, ?_⟩
    simp only [apply]
    rcases g.run? subgraph with _ | run
    · exact .refl g
    · exact .iterate g run
  | stop => exact .inl ⟨rfl, .stop g⟩

theorem Consistent.apply (h : g.Consistent t) (operation : Operation σ ω) :
    (operation.apply g).Consistent (t ++ operation.made g) := by
  rcases operation.apply_cases g with ⟨hmade, hsame⟩ | ⟨attempt, c, hmade, hok⟩
  · rw [hmade, List.append_nil]
    exact h.sameTopology hsame
  · rw [hmade]
    exact h.connected (h.extends_result hok)

/-! ## Any number of operations -/

theorem Consistent.after (h : g.Consistent t) (operations : List (Operation σ ω)) :
    (g.after operations).Consistent (t ++ g.accepted operations) := by
  -- The topology grows along with the graph, so the induction is over both.
  induction operations generalizing g t with
  | nil => simpa [accepted, Graph.after] using h
  | cons operation rest ih =>
    have hstep := ih (h.apply operation)
    rwa [List.append_assoc] at hstep

theorem after_append (g : Graph σ ω) (past more : List (Operation σ ω)) :
    g.after (past ++ more) = (g.after past).after more :=
  List.foldl_append

theorem accepted_append (g : Graph σ ω) (past more : List (Operation σ ω)) :
    g.accepted (past ++ more) = g.accepted past ++ (g.after past).accepted more := by
  induction past generalizing g with
  | nil => rfl
  | cons operation rest ih =>
    change operation.made g ++ (operation.apply g).accepted (rest ++ more) = _
    rw [ih, ← List.append_assoc]
    rfl

/-- What each operation of a list preserves in consistent graphs is preserved by all of them. -/
theorem Consistent.preserved {P : Graph σ ω → Topology → Prop} {operations : List (Operation σ ω)}
    (hstep : ∀ operation ∈ operations, ∀ {g : Graph σ ω} {t : Topology}, g.Consistent t → P g t →
      P (operation.apply g) (t ++ operation.made g))
    (h : g.Consistent t) (hg : P g t) :
    P (g.after operations) (t ++ g.accepted operations) := by
  induction operations generalizing g t with
  | nil => simpa [accepted, Graph.after] using hg
  | cons operation rest ih =>
    have hrest := ih (fun later hlater ↦ hstep later (List.mem_cons_of_mem _ hlater))
      (h.apply operation) (hstep operation List.mem_cons_self h hg)
    rwa [List.append_assoc] at hrest

/-- Every graph that operations make is consistent with the connections that they made. -/
theorem consistent_after (options : Options) (operations : List (Operation σ ω)) :
    ((empty options).after operations).Consistent ((empty options).accepted operations) :=
  (consistent_empty options).after operations

end Step

end SignalFlow.Graph
