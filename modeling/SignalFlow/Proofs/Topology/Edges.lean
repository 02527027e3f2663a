import SignalFlow.Proofs.Partition.Contents
import SignalFlow.Proofs.Topology.Representation

/-!
# Ordering edges of a topology

The ordering edges of the subgraphs are the edges of the connections that were accepted. Both
ends of an edge are in the subgraph that holds it.
-/

namespace SignalFlow

variable {β : Type} {p : Partition β} {t : Topology} {c : Connection}

namespace Topology

theorem edges_append (t u : Topology) : edges (t ++ u) = t.edges ++ u.edges := by
  simp [edges]

theorem edges_singleton (c : Connection) : edges [c] = c.edges := by
  simp [edges]

end Topology

namespace Partition

theorem ne_of_allows (hc : p.Allows c) {e : Edge} (he : e ∈ c.edges) : e.1 ≠ e.2 := by
  cases c with
  | direct source target =>
    rw [List.mem_singleton.1 he]
    exact hc.1
  | queued b =>
    rcases List.mem_cons.1 he with rfl | he
    · exact hc.1.source_ne_writer
    · rw [List.mem_singleton.1 he]
      exact hc.1.target_ne_reader.symm

theorem Records.bridged {edges : List Edge} (h : p.Records edges) (producer consumer : SubgraphId)
    (queue : QueueId) : ((p.setInbound consumer queue).link producer consumer).Records edges := by
  refine h.congr (fun i ↦ ?_) rfl
  change ((p.setInbound consumer queue).entry i).edges = _
  rw [setInbound, entry_modify]
  split <;> rfl

namespace Represents

theorem records_bridge (h : p.Represents t) {b : Bridge} (hf : p.Fresh b)
    (hr : p.Records t.edges) : (p.bridge b).Records (Topology.edges (t ++ [.queued b])) := by
  have hwriter := hr.join h.wellFormed hf.source_ne_writer
  have hreader := hwriter.join (h.join_writer hf).wellFormed hf.target_ne_reader.symm
  have hedges : Topology.edges (t ++ [.queued b]) =
      t.edges ++ [(b.source, b.writer)] ++ [(b.reader, b.target)] := by
    simp [Topology.edges, Connection.edges]
  rw [hedges]
  unfold Partition.bridge
  simp only
  split
  · exact hreader.bridged _ _ _
  · exact hreader

/-- A connection that the rules let through records its edges. -/
theorem records_extend (h : p.Represents t) (hc : p.Allows c) (hr : p.Records t.edges) :
    (p.extend c).Records (Topology.edges (t ++ [c])) := by
  cases c with
  | direct source target =>
    have hjoin := hr.join h.wellFormed hc.1
    rwa [Topology.edges_append, Topology.edges_singleton]
  | queued b => exact h.records_bridge hc.1 hr

/-- An edge of the topology is held by the subgraph of both of its ends. -/
theorem mem_edges_iff (h : p.Represents t) (hr : p.Records t.edges) {e : Edge} {s : SubgraphId}
    (hs : p.Survives s.index) : e ∈ p.edges s ↔
      e ∈ t.edges ∧ p.of e.1 = some s ∧ p.of e.2 = some s := by
  rw [edges, survivor, root_of_survives hs, hr.mem_edges, ← h.wellFormed.of_eq_some_iff]
  refine and_congr_right fun he ↦ (and_iff_left_of_imp fun hsource ↦ ?_).symm
  by_cases hloop : e.1 = e.2
  · exact hloop ▸ hsource
  · have hadj : t.wiring.Adj e.1 e.2 := (SimpleGraph.fromRel_adj ..).2 ⟨hloop, .inl he⟩
    exact h.tracks.of_reachable hsource hadj.reachable

end Represents

end Partition

end SignalFlow
