import SignalFlow.Demo.Node
import SignalFlow.Proofs.Graph.Threads
import SignalFlow.Proofs.Schedule.Remaining

/-!
# What a start reports of cycles

Before a graph starts, the nodes of each of its subgraphs are put in order. If this does not come
to an end for a subgraph, the start is refused, and reports the nodes that never get ready: those on
cycles of the subgraph and behind them.
-/

namespace SignalFlow.Graph

variable {σ ω : Type} {g : Graph σ ω} {s : SubgraphId} {remaining : List NodeId}

/-- A plan is refused for a cycle only if there is no order of the nodes. -/
theorem order_of_plan_eq_error {s' : SubgraphId}
    (h : g.plan s' = .error (.cycleTopology s remaining)) :
    Schedule.order (g.partition.nodes s) (g.partition.edges s) = .error remaining := by
  unfold plan at h
  split at h
  · next horder =>
    cases h
    exact horder
  · split at h <;> cases h

variable [Behaviour σ ω]

/-- A start reports what is left of the nodes of a subgraph. -/
theorem order_of_start_eq_error (hp : g.partition.Forest) {spawner : Spawner}
    {reports : RunReports ω} {lost : List SubgraphId} (h : (g.start spawner).2 =
      .error (.failed (.cycleTopology s remaining) reports lost)) :
    Schedule.order (g.partition.nodes s) (g.partition.edges s) = .error remaining := by
  obtain ⟨s', -, hplan⟩ : ∃ s' ∈ g.forwarded.subgraphs,
      g.forwarded.plan s' = .error (.cycleTopology s remaining) := by
    refine exists_eq_error_of_mapM ?_
    unfold start at h
    split at h
    · cases h
    · simp only at h
      split at h
      · cases h
      · split at h
        · next e herror =>
          cases h
          exact herror
        · split at h
          · cases h
          · split at h
            · cases h
            · split at h <;> cases h
  have hforward := Partition.SameTopology.forwardAll g.partition
  calc Schedule.order (g.partition.nodes s) (g.partition.edges s)
    _ = Schedule.order (g.forwarded.partition.nodes s) (g.forwarded.partition.edges s) :=
      congrArg₂ _ (hforward.nodes_eq hp s).symm (hforward.edges_eq hp s).symm
    _ = .error remaining := order_of_plan_eq_error hplan

/-- Nodes that cannot be put in order leave those on cycles and behind them. These are what a start
of a graph reports that it refuses for a cycle. -/
theorem cycles_are_reported :
    (∀ (nodes : List NodeId) (edges : List Edge) (remaining : List NodeId), nodes.Nodup →
      Schedule.order nodes edges = .error remaining →
        Schedule.Remains nodes edges remaining) ∧
    ∀ (options : Options) (operations : List (Operation σ ω)) (s : SubgraphId)
      (remaining : List NodeId) (spawner : Spawner) (reports : RunReports ω)
      (lost : List SubgraphId), (((empty options).after operations).start spawner).2 =
          .error (.failed (.cycleTopology s remaining) reports lost) →
        Schedule.Remains (((empty options).after operations).partition.nodes s)
          (((empty options).after operations).partition.edges s) remaining := by
  refine ⟨fun nodes edges remaining ↦ Schedule.remains_of_order, ?_⟩
  intro options operations s remaining spawner reports lost h
  have hp := (consistent_after options operations).represents.wellFormed
  exact Schedule.remains_of_order (hp.nodup _) (order_of_start_eq_error hp.toForest h)

/-- Two stages that feed each other, and a third one behind them. -/
def gainSpiral : List (Operation Demo.Node Empty) :=
  .replicate 3 (.add (Demo.Gain.ports (Numeric.Binary.zero Numeric.binary64 false)) .gain) ++
    [.connect (.connect ⟨1⟩ ⟨2⟩), .connect (.connect ⟨0⟩ ⟨1⟩), .connect (.connect ⟨1⟩ ⟨0⟩)]

/-- Edges from a source to a cycle, on it, and from it to a node behind, of which one is there
twice. -/
def spiralEdges : List Edge :=
  [(⟨3⟩, ⟨0⟩), (⟨0⟩, ⟨1⟩), (⟨1⟩, ⟨0⟩), (⟨1⟩, ⟨2⟩), (⟨1⟩, ⟨2⟩)]

theorem gainSpiral_reported :
    ([⟨3⟩, ⟨2⟩, ⟨0⟩, ⟨1⟩] : List NodeId).Nodup ∧
    Schedule.order [⟨3⟩, ⟨2⟩, ⟨0⟩, ⟨1⟩] spiralEdges = .error [⟨2⟩, ⟨0⟩, ⟨1⟩] ∧
    Schedule.Remains [⟨3⟩, ⟨2⟩, ⟨0⟩, ⟨1⟩] spiralEdges [⟨2⟩, ⟨0⟩, ⟨1⟩] ∧
    (((empty .standard).after gainSpiral).start .willing).2 =
      .error (.failed (.cycleTopology ⟨0⟩ [⟨1⟩, ⟨2⟩, ⟨0⟩]) [] []) ∧
    Schedule.Remains (((empty .standard).after gainSpiral).partition.nodes ⟨0⟩)
      (((empty .standard).after gainSpiral).partition.edges ⟨0⟩) [⟨1⟩, ⟨2⟩, ⟨0⟩] := by
  have hnodes : ([⟨3⟩, ⟨2⟩, ⟨0⟩, ⟨1⟩] : List NodeId).Nodup := by decide
  have hstart : (((empty .standard).after gainSpiral).start .willing).2 =
      .error (.failed (.cycleTopology ⟨0⟩ [⟨1⟩, ⟨2⟩, ⟨0⟩]) [] []) := rfl
  exact ⟨hnodes, rfl, (cycles_are_reported (σ := Demo.Node)).1 _ _ _ hnodes rfl, hstart,
    cycles_are_reported.2 .standard gainSpiral _ _ _ _ _ hstart⟩

end SignalFlow.Graph
