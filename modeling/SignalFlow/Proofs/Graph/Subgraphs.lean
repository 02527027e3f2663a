import SignalFlow.Proofs.Graph.Operation

/-!
# Subgraphs and their queues

Whatever was done to a graph, its subgraphs are the components of the accepted connections, and
the queues between them are those of the accepted queued connections. No merge moves a queue to
another subgraph, loses it, or brings its two ends together.
-/

namespace SignalFlow.Graph

variable {σ ω : Type} {g : Graph σ ω} {t : Topology} {a b : NodeId}

/-- A graph whose subgraphs are the components of an undirected graph of its nodes. -/
structure DividedBy (g : Graph σ ω) (wiring : SimpleGraph NodeId) : Prop where
  /-- Two connected nodes share a subgraph if one can be reached from the other. -/
  sameSubgraph_iff : ∀ {a b}, a ∈ wiring.support → b ∈ wiring.support →
    (g.sameSubgraph a b = true ↔ wiring.Reachable a b)
  /-- Nodes share a subgraph only if both are connected. -/
  mem_support : ∀ {a b}, g.sameSubgraph a b = true → a ∈ wiring.support ∧ b ∈ wiring.support
  /-- The nodes without a subgraph are those without an edge. -/
  subgraphOf_eq_none_iff : ∀ {node}, g.subgraphOf node = none ↔ node ∉ wiring.support
  /-- There are as many subgraphs as components with an edge. -/
  length_subgraphs : g.subgraphs.length = (wiring.connectedComponentMk '' wiring.support).ncard

/-- A graph whose subgraphs are fed by the queues of some bridges and no others. -/
structure FedBy (g : Graph σ ω) (bridges : List Bridge) : Prop where
  /-- A queue leads from the subgraph of its source and its writer to another one, that of its
  reader and its target. -/
  apart : ∀ b ∈ bridges, ∃ producer consumer, producer ≠ consumer ∧
    (g.subgraphOf b.source = some producer ∧ g.subgraphOf b.writer = some producer) ∧
      g.subgraphOf b.reader = some consumer ∧ g.subgraphOf b.target = some consumer
  /-- The writer and the reader of a bridge are those of its queue. -/
  adapters : ∀ b ∈ bridges,
    g.role? b.writer = some (.writer b.queue) ∧ g.role? b.reader = some (.reader b.queue)
  /-- A subgraph is fed by one bridge at most. -/
  single : ∀ b ∈ bridges, ∀ c ∈ bridges, g.subgraphOf b.reader = g.subgraphOf c.reader → b = c
  /-- Every bridge has a queue of its own. -/
  nodup_queues : (bridges.map Bridge.queue).Nodup
  /-- What feeds a subgraph is the queue of the bridge whose reader is among its nodes. -/
  inbound_iff : ∀ {s queue}, g.partition.inbound s = some queue ↔
    ∃ b ∈ bridges, b.queue = queue ∧ g.subgraphOf b.reader = some (g.partition.find s) ∧
      b.reader ∈ g.partition.nodes s

theorem sameSubgraph_eq_true_iff :
    g.sameSubgraph a b = true ↔ ∃ s, g.subgraphOf a = some s ∧ g.subgraphOf b = some s := by
  unfold sameSubgraph
  split
  · next s t ha hb =>
    rw [beq_iff_eq]
    constructor
    · intro hst
      exact ⟨s, ha, hst ▸ hb⟩
    · intro hshared
      obtain ⟨u, hu, hu'⟩ := hshared
      have hst : some s = some t := by
        calc
          some s = g.subgraphOf a := ha.symm
          _ = some u := hu
          _ = g.subgraphOf b := hu'.symm
          _ = some t := hb
      exact Option.some.inj hst
  · next hnone =>
    constructor
    · exact nofun
    · intro hshared
      obtain ⟨s, ha, hb⟩ := hshared
      exact absurd hb (hnone s s ha)

namespace Consistent

theorem dividedBy (h : g.Consistent t) : g.DividedBy t.wiring := by
  have htracks := h.represents.tracks
  constructor
  case sameSubgraph_iff =>
    intro a b ha hb
    obtain ⟨s, hs⟩ := htracks.mem_support.1 ha
    obtain ⟨u, hu⟩ := htracks.mem_support.1 hb
    rw [sameSubgraph_eq_true_iff, ← htracks.eq_iff hs hu, subgraphOf, subgraphOf, hs, hu]
    simp [eq_comm]
  case mem_support =>
    intro a b hab
    obtain ⟨s, ha, hb⟩ := sameSubgraph_eq_true_iff.1 hab
    exact ⟨htracks.mem_support.2 ⟨s, ha⟩, htracks.mem_support.2 ⟨s, hb⟩⟩
  case subgraphOf_eq_none_iff =>
    intro node
    rw [htracks.mem_support, subgraphOf, Option.eq_none_iff_forall_ne_some, not_exists]
  case length_subgraphs => exact htracks.length_roots h.represents.wellFormed

theorem fedBy (h : g.Consistent t) : g.FedBy t.bridges := by
  have hp := h.represents.wellFormed
  have htracks := h.represents.tracks
  constructor
  case apart =>
    intro b hb
    obtain ⟨producer, consumer, hproducer, hreader, htarget⟩ := h.represents.placed b hb
    refine ⟨producer, consumer, ?_, hproducer, hreader, htarget⟩
    intro heq
    exact h.lawful.apart b hb ((htracks.eq_iff hproducer.2 hreader).1 heq)
  case adapters => exact h.adapters
  case single =>
    intro b hb c hc heq
    obtain ⟨-, s, -, hbs, -⟩ := h.represents.placed b hb
    exact h.lawful.single b hb c hc ((htracks.eq_iff hbs (heq.symm.trans hbs)).1 rfl)
  case nodup_queues => exact h.nodup_queues
  case inbound_iff =>
    intro s queue
    have hmem (b : Bridge) (hb : g.subgraphOf b.reader = some (g.partition.find s)) :
        b.reader ∈ g.partition.nodes s :=
      hp.mem_nodes.2 (hp.of_eq_some_iff.1 hb)
    rw [h.represents.inbound]
    refine exists_congr fun b ↦ and_congr_right fun _ ↦ and_congr_right fun _ ↦ ?_
    exact ⟨fun hb ↦ ⟨hb, hmem b hb⟩, And.left⟩

end Consistent

section Reached

variable [Behaviour σ ω]

/-- The subgraphs are the components of the accepted connections. -/
theorem subgraphs_are_components (options : Options) (operations : List (Operation σ ω)) :
    ((empty options).after operations).DividedBy
      ((empty options).accepted operations).wiring :=
  (consistent_after options operations).dividedBy

/-- Each queue feeds the subgraph of its reader and no other, and never that of its writer. -/
theorem queues_feed_consumers (options : Options) (operations : List (Operation σ ω)) :
    ((empty options).after operations).FedBy ((empty options).accepted operations).bridges :=
  (consistent_after options operations).fedBy

end Reached

end SignalFlow.Graph
