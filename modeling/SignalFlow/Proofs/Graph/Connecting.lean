import SignalFlow.Proofs.Graph.Frame
import SignalFlow.Proofs.Topology.Loops

/-!
# What a connection does

A connection that is accepted joins two nodes that are there, or adds a queue with a writer and a
reader between them. It is accepted only if the partition allows it, and does to the partition
what the partition says.
-/

namespace SignalFlow.Graph

variable {σ ω : Type} {g g' : Graph σ ω} {a b : NodeId} {source target : PortRef}

theorem ensureStopped_eq_ok_iff : g.ensureStopped = .ok () ↔ g.isRunning = false := by
  simp [ensureStopped]

theorem lt_of_node {n : Node σ ω} (h : g.node a = .ok n) : a.index < g.nodeCount := by
  unfold node at h
  split at h
  · cases h
  · next slot hslot => exact (List.getElem?_eq_some_iff.1 hslot).1

theorem lt_of_port {p : Port PortRef ω} (h : g.port source = .ok p) :
    source.node.index < g.nodeCount := by
  obtain ⟨n, hn, -⟩ := bind_eq_ok_iff.1 h
  exact lt_of_node hn

theorem lt_of_output {o : Output} (h : g.output source = .ok o) :
    source.node.index < g.nodeCount := by
  obtain ⟨p, hp, -⟩ := bind_eq_ok_iff.1 h
  exact lt_of_port hp

theorem lt_of_input {i : Input PortRef} (h : g.input target = .ok i) :
    target.node.index < g.nodeCount := by
  obtain ⟨p, hp, -⟩ := bind_eq_ok_iff.1 h
  exact lt_of_port hp

theorem attached_eq_ok_iff {i : Input PortRef} : g.attached source target = .ok i ↔
    source.node ≠ target.node ∧ ∃ o j, g.output source = .ok o ∧ g.input target = .ok j ∧
      j.attach source o.type = .ok i := by
  unfold attached
  rw [ite_error_eq_ok_iff]
  refine and_congr_right fun _ ↦ ?_
  simp only [bind_eq_ok_iff]
  refine exists_congr fun o ↦ ?_
  rw [exists_and_left]
  refine and_congr_right fun _ ↦ exists_congr fun j ↦ and_congr_right fun _ ↦ ?_
  cases j.attach source o.type <;> simp

theorem checkJoin_eq_ok_iff (hp : g.partition.WellFormed) :
    g.checkJoin a b = .ok () ↔ g.partition.MayJoin a b := by
  rw [Partition.mayJoin_iff hp]
  unfold checkJoin subgraphOf
  rcases g.partition.of a with _ | s <;> rcases g.partition.of b with _ | t <;>
    simp [mapError_eq_ok_iff]

theorem checkQueue_eq_ok_iff :
    g.checkQueue a b = .ok () ↔ a ≠ b ∧ g.partition.MayBridge a b := by
  unfold checkQueue Partition.MayBridge
  simp only [Bind.bind, Except.bind, ite_error_eq_ok_iff, pure, Except.pure]
  refine and_congr_right fun _ ↦ ?_
  rw [subgraphOf, subgraphOf]
  rcases g.partition.of b with _ | s
  · simp
  · simp [ite_error_eq_ok_iff]

/-- The graph with an input of a node replaced. -/
def wire (g : Graph σ ω) (target : PortRef) (i : Input PortRef) : Graph σ ω :=
  g.modifyNode target.node fun n ↦ { n with ports := n.ports.set target.port (.input i) }

theorem connectPorts_eq_ok_iff : g.connectPorts source target = .ok g' ↔
    g.isRunning = false ∧ ∃ i, g.attached source target = .ok i ∧
      g.checkJoin source.node target.node = .ok () ∧
      g' = { g.wire target i with partition := g.partition.join source.node target.node } := by
  simp only [connectPorts, bind_eq_ok_iff, pure, Except.pure, Except.ok.injEq,
    Unique.exists_iff, PUnit.default_eq_unit, ensureStopped_eq_ok_iff]
  refine and_congr_right fun _ ↦ exists_congr fun i ↦ and_congr_right fun _ ↦
    and_congr_right fun _ ↦ ?_
  exact eq_comm

/-- The usual port is a port of the node that is asked for. -/
theorem node_of_defaultPort {id : NodeId} {kind : PortKind} {ref : PortRef}
    (h : g.defaultPort id kind = .ok ref) : ref.node = id := by
  obtain ⟨n, -, h⟩ := bind_eq_ok_iff.1 h
  split at h
  · cases h
    rfl
  · cases h

theorem exists_connectPorts (h : g.connect a b = .ok g') :
    ∃ output input : PortRef, output.node = a ∧ input.node = b ∧
      g.connectPorts output input = .ok g' := by
  unfold connect at h
  simp only [bind_eq_ok_iff] at h
  obtain ⟨-, -, output, houtput, input, hinput, h⟩ := h
  exact ⟨output, input, node_of_defaultPort houtput, node_of_defaultPort hinput, h⟩

theorem exists_connectQueuedPorts [Behaviour σ ω] {capacity : Nat} {queue : QueueId}
    (h : g.connectQueuedWithCapacity a b capacity = .ok (queue, g')) :
    ∃ output input : PortRef, output.node = a ∧ input.node = b ∧
      g.connectQueuedPorts output input capacity = .ok (queue, g') := by
  unfold connectQueuedWithCapacity at h
  simp only [bind_eq_ok_iff] at h
  obtain ⟨-, -, output, houtput, input, hinput, h⟩ := h
  exact ⟨output, input, node_of_defaultPort houtput, node_of_defaultPort hinput, h⟩

/-- The graph with a new queue, its writer and its reader, which are not connected yet. -/
def withAdapters [Behaviour σ ω] (g : Graph σ ω) (type : DataType) (capacity : Nat) :
    Graph σ ω :=
  (((g.addQueue type capacity).2.push (Adapter.writerPorts type)
    (.writer ⟨g.queues.length⟩)).2.push (Adapter.readerPorts type) (.reader ⟨g.queues.length⟩)).2

/-- The bridge that a queued connection between two nodes makes: its writer and its reader are
the next two nodes. -/
def bridgeOf (g : Graph σ ω) (source target : NodeId) (queue : QueueId) : Bridge where
  source := source
  writer := ⟨g.nodeCount⟩
  reader := ⟨g.nodeCount + 1⟩
  target := target
  queue := queue

theorem connectQueuedPorts_eq_ok [Behaviour σ ω] {capacity : Nat} {queue : QueueId}
    (h : g.connectQueuedPorts source target capacity = .ok (queue, g')) :
    g.isRunning = false ∧ g.checkQueue source.node target.node = .ok () ∧
      (∃ i, g.attached source target = .ok i) ∧ queue = ⟨g.queues.length⟩ ∧
      ∃ type g₁ g₂,
        (g.withAdapters type capacity).connectPorts source ⟨⟨g.nodeCount⟩, 0⟩ = .ok g₁ ∧
        g₁.connectPorts ⟨⟨g.nodeCount + 1⟩, 0⟩ target = .ok g₂ ∧
        ∃ producer consumer, g₂.subgraphOf source.node = some producer ∧
          g₂.subgraphOf target.node = some consumer ∧
          g' = { g₂ with partition :=
            (g₂.partition.setInbound consumer queue).link producer consumer } := by
  simp only [connectQueuedPorts, bind_eq_ok_iff, mapError_eq_ok_iff, pure, Except.pure,
    Unique.exists_iff, PUnit.default_eq_unit, ensureStopped_eq_ok_iff] at h
  obtain ⟨hstopped, hqueue, i, hi, o, ho, g₁, hwriter, g₂, hreader, h⟩ := h
  refine ⟨hstopped, hqueue, ⟨i, hi⟩, ?_⟩
  split at h
  · next producer consumer hproducer hconsumer =>
    cases h
    have hindex : ((g.addQueue o.type capacity).2.push (Adapter.writerPorts o.type)
        (.writer ⟨g.queues.length⟩)).2.nodeCount = g.nodeCount + 1 := List.length_append ..
    have hreader' : g₁.connectPorts ⟨⟨g.nodeCount + 1⟩, 0⟩ target = .ok g₂ := by
      rw [← hindex]
      exact hreader
    exact ⟨rfl, o.type, g₁, g₂, hwriter, hreader', producer, consumer, hproducer, hconsumer, rfl⟩
  · cases h

/-- A graph behind a connection, which the partition allowed. -/
structure Extends (c : Connection) (g g' : Graph σ ω) : Prop extends Grows g g' where
  allows : g.partition.Allows c
  partition : g'.partition = g.partition.extend c
  known : ∀ e ∈ c.edges, e.1.index < g'.nodeCount ∧ e.2.index < g'.nodeCount
  adapters : ∀ b, c.bridge? = some b →
    g'.role? b.writer = some (.writer b.queue) ∧ g'.role? b.reader = some (.reader b.queue)
  queue : ∀ b, c.bridge? = some b →
    g.queues.length ≤ b.queue.index ∧ b.queue.index < g'.queues.length

theorem grows_wire (g : Graph σ ω) (target : PortRef) (i : Input PortRef) :
    g.Grows (g.wire target i) :=
  (SameTopology.modifyNode g target.node fun _ _ _ ↦ rfl).toGrows

theorem grows_connectPorts (h : g.connectPorts source target = .ok g') : g.Grows g' := by
  obtain ⟨-, i, -, -, hg'⟩ := connectPorts_eq_ok_iff.1 h
  rw [hg']
  exact (grows_wire g target i).congr rfl rfl

theorem extends_connectPorts (hp : g.partition.WellFormed)
    (h : g.connectPorts source target = .ok g') :
    g.Extends (.direct source.node target.node) g' := by
  obtain ⟨-, i, hi, hjoin, hg'⟩ := connectPorts_eq_ok_iff.1 h
  obtain ⟨hne, o, j, ho, hj, -⟩ := attached_eq_ok_iff.1 hi
  have hgrows := grows_connectPorts h
  exact
    { toGrows := hgrows
      allows := ⟨hne, (checkJoin_eq_ok_iff hp).1 hjoin⟩
      partition := by rw [hg']; rfl
      known := by
        intro e he
        rw [Connection.edges, List.mem_singleton] at he
        rw [he]
        exact ⟨(lt_of_output ho).trans_le hgrows.nodeCount_le,
          (lt_of_input hj).trans_le hgrows.nodeCount_le⟩
      adapters := nofun
      queue := nofun }

/-- The new nodes of a bridge are fresh if all others are known. -/
theorem fresh_bridgeOf (queue : QueueId)
    (hknown : ∀ {n s}, g.partition.of n = some s → n.index < g.nodeCount)
    (hne : a ≠ b) (ha : a.index < g.nodeCount) (hb : b.index < g.nodeCount) :
    g.partition.Fresh (g.bridgeOf a b queue) := by
  have hnew {n : NodeId} (hn : g.nodeCount ≤ n.index) : g.partition.of n = none := by
    rw [Option.eq_none_iff_forall_ne_some]
    intro s hs
    exact absurd (hknown hs) hn.not_gt
  have hapart {m n : NodeId} (hm : m.index < g.nodeCount) (hn : g.nodeCount ≤ n.index) : m ≠ n := by
    intro hmn
    rw [hmn] at hm
    exact hm.not_ge hn
  exact
    { of_writer := hnew le_rfl
      of_reader := hnew (Nat.le_succ _)
      writer_ne_reader := by simp [bridgeOf]
      source_ne_target := hne
      source_ne_writer := hapart ha le_rfl
      source_ne_reader := hapart ha (Nat.le_succ _)
      target_ne_writer := hapart hb le_rfl
      target_ne_reader := hapart hb (Nat.le_succ _) }

section Queued

variable [Behaviour σ ω]

theorem grows_withAdapters (g : Graph σ ω) (type : DataType) (capacity : Nat) :
    g.Grows (g.withAdapters type capacity) :=
  ((Grows.addQueue g type capacity).trans (.push _ _ _)).trans (.push _ _ _)

theorem nodeCount_withAdapters (g : Graph σ ω) (type : DataType) (capacity : Nat) :
    (g.withAdapters type capacity).nodeCount = g.nodeCount + 2 := by
  simp [withAdapters, push, nodeCount, addQueue]

theorem role?_withAdapters (g : Graph σ ω) (type : DataType) (capacity : Nat) :
    (g.withAdapters type capacity).role? ⟨g.nodeCount⟩ = some (.writer ⟨g.queues.length⟩) ∧
      (g.withAdapters type capacity).role? ⟨g.nodeCount + 1⟩ =
        some (.reader ⟨g.queues.length⟩) := by
  simp [withAdapters, push, nodeCount, addQueue, role?, slot?, Node.ofSpecs]

theorem extends_connectQueuedPorts {capacity : Nat} {queue : QueueId}
    (hknown : ∀ {n s}, g.partition.of n = some s → n.index < g.nodeCount)
    (h : g.connectQueuedPorts source target capacity = .ok (queue, g')) :
    g.Extends (.queued (g.bridgeOf source.node target.node queue)) g' := by
  obtain ⟨-, hqueue, ⟨i, hi⟩, rfl, type, g₁, g₂, hwriter, hreader, producer, consumer, hproducer,
    hconsumer, hg'⟩ := connectQueuedPorts_eq_ok h
  obtain ⟨hne, o, j, ho, hj, -⟩ := attached_eq_ok_iff.1 hi
  obtain ⟨-, _, -, -, hg₁⟩ := connectPorts_eq_ok_iff.1 hwriter
  obtain ⟨-, _, -, -, hg₂⟩ := connectPorts_eq_ok_iff.1 hreader
  have hnew := (grows_connectPorts hwriter).trans (grows_connectPorts hreader)
  have hgrows : (g.withAdapters type capacity).Grows g' := hg' ▸ hnew.congr rfl rfl
  have hcount : g.nodeCount + 2 ≤ g'.nodeCount :=
    nodeCount_withAdapters g type capacity ▸ hgrows.nodeCount_le
  have hsource := lt_of_output ho
  have htarget := lt_of_input hj
  exact
    { toGrows := (grows_withAdapters g type capacity).trans hgrows
      allows := ⟨fresh_bridgeOf _ hknown hne hsource htarget, (checkQueue_eq_ok_iff.1 hqueue).2⟩
      partition := by
        have hpartition : g₂.partition = (g.partition.join source.node ⟨g.nodeCount⟩).join
            ⟨g.nodeCount + 1⟩ target.node := by
          rw [hg₂, hg₁]
          rfl
        rw [subgraphOf, hpartition] at hproducer hconsumer
        rw [hg', hpartition]
        simp only [Partition.extend, Partition.bridge, bridgeOf, hproducer, hconsumer]
      known := by
        simp only [Connection.edges, bridgeOf, List.mem_cons, List.not_mem_nil, or_false,
          forall_eq_or_imp, forall_eq]
        omega
      adapters := by
        intro b hb
        obtain rfl := Option.some.inj hb
        exact (role?_withAdapters g type capacity).imp (hgrows.hidden rfl) (hgrows.hidden rfl)
      queue := by
        intro b hb
        obtain rfl := Option.some.inj hb
        have hlength : (g.withAdapters type capacity).queues.length = g.queues.length + 1 :=
          List.length_append ..
        exact ⟨le_rfl, hgrows.queues_le.trans_lt' (hlength ▸ Nat.lt_succ_self _)⟩ }

end Queued

end SignalFlow.Graph
