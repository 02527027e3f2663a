import SignalFlow.Proofs.Graph.Operation
import SignalFlow.Proofs.Graph.Ports

/-!
# When connections succeed

A connection succeeds exactly if the checks let it through. For one by a queue this is so since
its writer and its reader are new nodes: nothing is attached to them and they are in no subgraph,
so that neither of the two direct connections can be refused.
-/

namespace SignalFlow.Graph

variable {σ ω : Type} {g g' : Graph σ ω} {t : Topology} {source target : PortRef}
  {type : DataType}

/-- The graph with an input attached to an output of its type, and their nodes in one
subgraph. -/
def joined (g : Graph σ ω) (source target : PortRef) (type : DataType) : Graph σ ω :=
  { g.wire target ⟨type, some source⟩ with
    partition := g.partition.join source.node target.node }

theorem connectPorts_eq_ok_iff_fits (hp : g.partition.WellFormed) :
    g.connectPorts source target = .ok g' ↔ g.isRunning = false ∧
      g.partition.MayJoin source.node target.node ∧
        ∃ type, g.Fits source target type ∧ g' = g.joined source target type := by
  simp only [connectPorts_eq_ok_iff, checkJoin_eq_ok_iff hp, attached_eq_ok_iff_fits]
  constructor
  · rintro ⟨hstopped, i, ⟨type, hfits, rfl⟩, hmay, rfl⟩
    exact ⟨hstopped, hmay, type, hfits, rfl⟩
  · rintro ⟨hstopped, hmay, type, hfits, rfl⟩
    exact ⟨hstopped, _, ⟨type, hfits, rfl⟩, hmay, rfl⟩

section Queued

variable [Behaviour σ ω] {capacity : Nat}

/-- The adapters leave the ports of all other nodes alone. -/
theorem port_withAdapters {ref : PortRef} {p : Port PortRef ω} (h : g.port ref = .ok p) :
    (g.withAdapters type capacity).port ref = .ok p := by
  have hqueue : (g.addQueue type capacity).2.port ref = .ok p := h
  exact port_push (port_push hqueue)

/-- A writer that was just added has a free input. -/
theorem port_writer : (g.withAdapters type capacity).port ⟨⟨g.nodeCount⟩, 0⟩ =
    .ok (.input (.ofType type)) := by
  have hwriter := port_push_new (g.addQueue type capacity).2 (Adapter.writerPorts type)
    (.writer ⟨g.queues.length⟩) (k := 0) rfl
  exact port_push hwriter

theorem port_reader : (g.withAdapters type capacity).port ⟨⟨g.nodeCount + 1⟩, 0⟩ =
    .ok (.output (.ofType type)) := by
  have hcount : ((g.addQueue type capacity).2.push (Adapter.writerPorts type)
      (.writer ⟨g.queues.length⟩)).2.nodeCount = g.nodeCount + 1 := List.length_append ..
  rw [← hcount]
  exact port_push_new _ (Adapter.readerPorts type) (.reader ⟨g.queues.length⟩) (k := 0) rfl

/-- The graph with the adapters, of which the writer is connected. -/
def withWriter (g : Graph σ ω) (source : PortRef) (type : DataType) (capacity : Nat) :
    Graph σ ω :=
  (g.withAdapters type capacity).joined source ⟨⟨g.nodeCount⟩, 0⟩ type

/-- The graph with the adapters, both of them connected. -/
def withReader (g : Graph σ ω) (source target : PortRef) (type : DataType) (capacity : Nat) :
    Graph σ ω :=
  (g.withWriter source type capacity).joined ⟨⟨g.nodeCount + 1⟩, 0⟩ target type

/-- The graph with the adapters and the queue between their subgraphs. -/
def bridged (g : Graph σ ω) (source target : PortRef) (type : DataType) (capacity : Nat) :
    Graph σ ω :=
  { g.withReader source target type capacity with
    partition :=
      g.partition.bridge (g.bridgeOf source.node target.node ⟨g.queues.length⟩) }

namespace Consistent

variable (h : g.Consistent t) (hstopped : g.isRunning = false) (hfits : g.Fits source target type)

include h hfits in
omit [Behaviour σ ω] in
theorem fresh_adapters (queue : QueueId) :
    g.partition.Fresh (g.bridgeOf source.node target.node queue) := by
  obtain ⟨value, hsource⟩ := hfits.output
  exact fresh_bridgeOf queue h.index_lt hfits.ne (lt_of_port hsource) (lt_of_port hfits.input)

include h hstopped hfits

theorem connectPorts_writer (capacity : Nat) : (g.withAdapters type capacity).connectPorts source
    ⟨⟨g.nodeCount⟩, 0⟩ = .ok (g.withWriter source type capacity) := by
  have hfresh := h.fresh_adapters hfits ⟨g.queues.length⟩
  obtain ⟨value, hsource⟩ := hfits.output
  have hwriter : (g.withAdapters type capacity).Fits source ⟨⟨g.nodeCount⟩, 0⟩ type :=
    ⟨hfresh.source_ne_writer, ⟨value, port_withAdapters hsource⟩, port_writer⟩
  have hmay : g.partition.MayJoin source.node ⟨g.nodeCount⟩ :=
    Partition.mayJoin_of_none (.inr hfresh.of_writer)
  exact (connectPorts_eq_ok_iff_fits (g := g.withAdapters type capacity)
    h.represents.wellFormed).2 ⟨hstopped, hmay, type, hwriter, rfl⟩

omit hstopped in
/-- The output of the reader is there when the writer is connected. -/
theorem port_withWriter_reader (capacity : Nat) : (g.withWriter source type capacity).port
    ⟨⟨g.nodeCount + 1⟩, 0⟩ = .ok (.output (.ofType type)) := by
  have hfresh := h.fresh_adapters hfits ⟨g.queues.length⟩
  exact port_wire (ne_of_apply_ne PortRef.node hfresh.writer_ne_reader.symm) port_reader

omit hstopped in
/-- The input of the target is free when the writer is connected. -/
theorem port_withWriter_target (capacity : Nat) :
    (g.withWriter source type capacity).port target = .ok (.input (.ofType type)) := by
  have hfresh := h.fresh_adapters hfits ⟨g.queues.length⟩
  exact port_wire (ne_of_apply_ne PortRef.node hfresh.target_ne_writer)
    (port_withAdapters hfits.input)

theorem connectPorts_reader (capacity : Nat) : (g.withWriter source type capacity).connectPorts
    ⟨⟨g.nodeCount + 1⟩, 0⟩ target = .ok (g.withReader source target type capacity) := by
  have hfresh := h.fresh_adapters hfits ⟨g.queues.length⟩
  have hboth : (g.withWriter source type capacity).Fits ⟨⟨g.nodeCount + 1⟩, 0⟩ target type :=
    ⟨hfresh.target_ne_reader.symm, ⟨none, h.port_withWriter_reader hfits capacity⟩,
      h.port_withWriter_target hfits capacity⟩
  have hmay : (g.withWriter source type capacity).partition.MayJoin ⟨g.nodeCount + 1⟩
      target.node := Partition.mayJoin_of_none (.inl (hfresh.of_reader_join h.represents))
  exact (connectPorts_eq_ok_iff_fits (h.represents.join_writer hfresh).wellFormed).2
    ⟨hstopped, hmay, type, hboth, rfl⟩

omit hstopped in
/-- Both ends of the queue are in a subgraph when its adapters are connected. -/
theorem exists_ends (capacity : Nat) : ∃ producer consumer,
    (g.withReader source target type capacity).subgraphOf source.node = some producer ∧
      (g.withReader source target type capacity).subgraphOf target.node = some consumer ∧
      { g.withReader source target type capacity with
        partition := ((g.withReader source target type capacity).partition.setInbound consumer
          ⟨g.queues.length⟩).link producer consumer } = g.bridged source target type capacity := by
  have hfresh := h.fresh_adapters hfits ⟨g.queues.length⟩
  obtain ⟨producer, consumer, -, ⟨hproducer, -⟩, -, hconsumer⟩ :=
    h.represents.exists_bridged hfresh
  refine ⟨producer, consumer, hproducer, hconsumer, ?_⟩
  unfold bridged Partition.bridge
  simp only [hproducer, hconsumer]
  rfl

/-- A queue between ports that fit is refused by the checks of subgraphs only. -/
theorem connectQueuedPorts_eq (hqueue : g.checkQueue source.node target.node = .ok ()) :
    g.connectQueuedPorts source target capacity =
      .ok (⟨g.queues.length⟩, g.bridged source target type capacity) := by
  obtain ⟨value, hsource⟩ := hfits.output
  have hattached := attached_eq_ok_iff_fits.2 ⟨type, hfits, rfl⟩
  have hwriter := h.connectPorts_writer hstopped hfits capacity
  have hreader := h.connectPorts_reader hstopped hfits capacity
  obtain ⟨producer, consumer, hproducer, hconsumer, hbridged⟩ :=
    h.exists_ends hfits capacity
  have hindex : ((g.addQueue type capacity).2.push (Adapter.writerPorts type)
      (.writer ⟨g.queues.length⟩)).2.nodeCount = g.nodeCount + 1 := List.length_append ..
  simp only [connectQueuedPorts, bind_eq_ok_iff, mapError_eq_ok_iff, pure, Except.pure,
    Unique.exists_iff, PUnit.default_eq_unit, ensureStopped_eq_ok_iff]
  refine ⟨hstopped, hqueue, _, hattached, _, output_eq_ok_iff.2 hsource, _, hwriter,
    g.withReader source target type capacity, ?_, ?_⟩
  · rw [← hindex] at hreader
    exact hreader
  · rw [hproducer, hconsumer]
    exact congrArg (fun g' ↦ Except.ok (_, g')) hbridged

omit hstopped hfits in
theorem connectQueuedPorts_eq_ok_iff {queue : QueueId} :
    g.connectQueuedPorts source target capacity = .ok (queue, g') ↔ g.isRunning = false ∧
      g.checkQueue source.node target.node = .ok () ∧ queue = ⟨g.queues.length⟩ ∧
        ∃ type, g.Fits source target type ∧ g' = g.bridged source target type capacity := by
  constructor
  · intro hok
    obtain ⟨hstopped, hqueue, hattached, -⟩ := connectQueuedPorts_eq_ok hok
    obtain ⟨type, hfits⟩ := exists_attached_iff.1 hattached
    rw [h.connectQueuedPorts_eq hstopped hfits hqueue] at hok
    cases hok
    exact ⟨hstopped, hqueue, rfl, type, hfits, rfl⟩
  · rintro ⟨hstopped, hqueue, rfl, type, hfits, rfl⟩
    exact h.connectQueuedPorts_eq hstopped hfits hqueue

end Consistent

end Queued

end SignalFlow.Graph
