import SignalFlow.Demo.Node
import SignalFlow.Proofs.Graph.Operation

/-!
# Loops of queues in a graph

The checks of a connection look only at the subgraphs of its two ends. A chain of queues through
other subgraphs escapes them, and so does a queue back to where another one comes from; then
each subgraph of the loop waits for data that only the loop could bring. What is told here is
exactly which connections close a loop, and that all subgraphs of a graph run by a clock if none
did.
-/

namespace SignalFlow.Graph

open Relation

variable {σ ω : Type} {g g' : Graph σ ω} {t : Topology} {c : Connection}

theorem SameTopology.loopFree_iff (h : g.Consistent t) (hg : g.SameTopology g') :
    g'.partition.LoopFree ↔ g.partition.LoopFree :=
  Partition.feeds_congr_loopFree fun _ _ ↦
    hg.partition.sameDivision.toGrows.feeds h.represents.wellFormed.toForest

theorem Extends.loopFree_iff (h : g.Consistent t) (hg : g.Extends c g') :
    g'.partition.LoopFree ↔ g.partition.LoopFree ∧ g.partition.ClosesNoLoop c := by
  rw [hg.partition]
  exact h.represents.extend_loopFree_iff h.lawful hg.allows

variable [Behaviour σ ω]

/-- Whether none of the connections that operations make closes a loop of queues. -/
def ClosesNoLoop (g : Graph σ ω) : List (Operation σ ω) → Prop
  | [] => True
  | operation :: rest =>
    (∀ c ∈ operation.made g, g.partition.ClosesNoLoop c) ∧ (operation.apply g).ClosesNoLoop rest

namespace Consistent

theorem apply_loopFree_iff (h : g.Consistent t) (operation : Operation σ ω) :
    (operation.apply g).partition.LoopFree ↔ g.partition.LoopFree ∧
      ∀ c ∈ operation.made g, g.partition.ClosesNoLoop c := by
  rcases operation.apply_cases g with ⟨hmade, hsame⟩ | ⟨attempt, c, hmade, hok⟩
  · rw [hmade, hsame.loopFree_iff h]
    simp
  · rw [hmade, (h.extends_result hok).loopFree_iff h]
    simp

theorem after_loopFree_iff (h : g.Consistent t) (operations : List (Operation σ ω)) :
    (g.after operations).partition.LoopFree ↔
      g.partition.LoopFree ∧ g.ClosesNoLoop operations := by
  induction operations generalizing g t with
  | nil => simp [Graph.after, ClosesNoLoop]
  | cons operation rest ih =>
    calc ((operation.apply g).after rest).partition.LoopFree
      _ ↔ (operation.apply g).partition.LoopFree ∧ (operation.apply g).ClosesNoLoop rest :=
        ih (h.apply operation)
      _ ↔ g.partition.LoopFree ∧ g.ClosesNoLoop (operation :: rest) := by
        rw [h.apply_loopFree_iff, ClosesNoLoop, and_assoc]

end Consistent

/-- Queues in a graph are free of loops exactly if no connection closed one. -/
theorem loopFree_after_iff (options : Options) (operations : List (Operation σ ω)) :
    ((empty options).after operations).partition.LoopFree ↔
      (empty options).ClosesNoLoop operations := by
  rw [(consistent_empty options).after_loopFree_iff]
  exact and_iff_right Partition.loopFree_empty

/-- A queue to a node that was in no subgraph closes no loop. -/
theorem closesNoLoop_of_new {source target : NodeId} (h : g.partition.of target = none) :
    ∀ c ∈ Operation.made g (.connect (.connectQueued source target)),
      g.partition.ClosesNoLoop c := by
  intro c hc
  simp only [Operation.made, Attempt.result] at hc
  cases hok : g.connectQueued source target with
  | error e =>
    rw [hok] at hc
    cases hc
  | ok made =>
    rw [hok] at hc
    obtain rfl := List.mem_singleton.1 hc
    exact Partition.unchained_of_none (.inl h)

/-- A direct connection keeps queues free of loops exactly if no chain of queues leads from the
subgraph of one end to that of the other. -/
theorem direct_loopFree_iff (options : Options) (operations : List (Operation σ ω))
    (attempt : Attempt) {source target : NodeId}
    (hok : attempt.result ((empty options).after operations) =
      .ok (.direct source target, g')) :
    g'.partition.LoopFree ↔ ((empty options).after operations).partition.LoopFree ∧
      ((empty options).after operations).partition.Unchained source target ∧
        ((empty options).after operations).partition.Unchained target source := by
  have hreached := consistent_after options operations
  exact (hreached.extends_result hok).loopFree_iff hreached

/-- Three stages of gain with a queue from the first to the second. -/
def gainPair : List (Operation Demo.Node Empty) :=
  .replicate 3 (.add (Demo.Gain.ports (Numeric.Binary.zero Numeric.binary64 false)) .gain) ++
    [.connect (.connectQueued ⟨0⟩ ⟨1⟩)]

/-- Three stages with a queue from each to the next. -/
def gainRow : List (Operation Demo.Node Empty) :=
  gainPair ++ [.connect (.connectQueued ⟨1⟩ ⟨2⟩)]

theorem closesNoLoop_gainPair : (empty .standard).ClosesNoLoop gainPair := by
  refine ⟨nofun, nofun, nofun, ?_, trivial⟩
  apply closesNoLoop_of_new
  decide

theorem closesNoLoop_gainRow : (empty .standard).ClosesNoLoop gainRow := by
  refine ⟨nofun, nofun, nofun, ?_, ?_, trivial⟩
  · apply closesNoLoop_of_new
    decide
  · apply closesNoLoop_of_new
    decide

/-- A direct connection to the third stage, which no queue leads to, closes no loop. -/
theorem gainPair_extended : ∃ g : Graph Demo.Node Empty,
    ((empty .standard).after gainPair).connect ⟨1⟩ ⟨2⟩ = .ok g ∧ g.partition.LoopFree := by
  refine ⟨_, rfl, ?_⟩
  have hthird : ((empty .standard).after gainPair).partition.of ⟨2⟩ = none := by decide
  apply (direct_loopFree_iff .standard gainPair (.connect ⟨1⟩ ⟨2⟩) rfl).2
  refine ⟨(loopFree_after_iff ..).2 closesNoLoop_gainPair, ?_, ?_⟩
  · exact Partition.unchained_of_none (.inr hthird)
  · exact Partition.unchained_of_none (.inl hthird)

/-- A direct connection from the last stage of a row to the first is accepted, and closes a
loop. -/
theorem gainRow_closed : ∃ g : Graph Demo.Node Empty,
    ((empty .standard).after gainRow).connect ⟨2⟩ ⟨0⟩ = .ok g ∧
      ((empty .standard).after gainRow).partition.LoopFree ∧ ¬ g.partition.LoopFree := by
  refine ⟨_, rfl, (loopFree_after_iff ..).2 closesNoLoop_gainRow, ?_⟩
  intro hfree
  apply hfree ⟨2⟩
  apply TransGen.tail (b := ⟨1⟩)
  · apply TransGen.single
    decide
  · decide

/-- Every subgraph of a graph that is started runs by a clock exactly if no connection closed a
loop, and then no subgraphs feed only each other. -/
theorem clocked_iff_closesNoLoop (options : Options) (operations : List (Operation σ ω))
    (spawner : Spawner) :
    ((∀ s ∈ (((empty options).after operations).start spawner).1.subgraphs,
        (((empty options).after operations).start spawner).1.partition.Clocked s) ↔
      (empty options).ClosesNoLoop operations) ∧
    ((¬ ∃ within,
        (((empty options).after operations).start spawner).1.partition.SelfFed within) ↔
      (empty options).ClosesNoLoop operations) := by
  have hreached := consistent_after options operations
  have hstarted := hreached.sameTopology (.start _ spawner)
  have hfree : (((empty options).after operations).start spawner).1.partition.LoopFree ↔
      (empty options).ClosesNoLoop operations := by
    rw [(SameTopology.start _ spawner).loopFree_iff hreached, loopFree_after_iff]
  have hclocked := hstarted.represents.clocked_iff_loopFree hstarted.lawful
  constructor
  · exact hclocked.trans hfree
  · rw [← hstarted.represents.clocked_iff_not_selfFed]
    exact hclocked.trans hfree

/-- Two stages that feed each other are accepted and started, and none of them runs by a
clock. -/
theorem gainPair_ring : ∃ g : Graph Demo.Node Empty,
    (((empty .standard).after gainPair).connectQueued ⟨1⟩ ⟨0⟩).map (·.2) = .ok g ∧
      (g.start .willing).2.toBool = true ∧ (g.start .willing).1.subgraphs = [⟨0⟩, ⟨1⟩] ∧
      ∀ s ∈ (g.start .willing).1.subgraphs, ¬ (g.start .willing).1.partition.Clocked s := by
  refine ⟨_, rfl, by decide, by decide, ?_⟩
  intro s hs
  apply Partition.not_clocked_of_fed
  · decide
  · revert s
    decide

end SignalFlow.Graph
