import Mathlib.Combinatorics.SimpleGraph.Maps
import SignalFlow.Proofs.Topology.Edges

/-!
# Topologies up to names

Two topologies may differ in the order of their connections and in the names of nodes and queues.
What the rules ask for does not depend on either, so both are lawful or none is. The partitions
that represent them are alike: they divide the nodes in the same way, and the subgraphs that
correspond have the same edges and are fed by the same queues.
-/

namespace SignalFlow

open SimpleGraph

/-- New names for nodes and queues. -/
structure Renaming where
  nodes : Equiv.Perm NodeId
  queues : Equiv.Perm QueueId

namespace Renaming

variable (r : Renaming)

protected def refl : Renaming :=
  ⟨.refl _, .refl _⟩

protected def trans (r' : Renaming) : Renaming :=
  ⟨r.nodes.trans r'.nodes, r.queues.trans r'.queues⟩

def edge (e : Edge) : Edge :=
  (r.nodes e.1, r.nodes e.2)

def bridge (b : Bridge) : Bridge where
  source := r.nodes b.source
  writer := r.nodes b.writer
  reader := r.nodes b.reader
  target := r.nodes b.target
  queue := r.queues b.queue

def connection : Connection → Connection
  | .direct source target => .direct (r.nodes source) (r.nodes target)
  | .queued b => .queued (r.bridge b)

theorem edge_injective : Function.Injective r.edge := by
  intro e e' h
  obtain ⟨hsource, htarget⟩ := Prod.mk.inj h
  exact Prod.ext (r.nodes.injective hsource) (r.nodes.injective htarget)

theorem edges_connection (c : Connection) :
    (r.connection c).edges = c.edges.map r.edge := by
  cases c <;> rfl

theorem bridge?_connection (c : Connection) :
    (r.connection c).bridge? = c.bridge?.map r.bridge := by
  cases c <;> rfl

theorem connection_refl (c : Connection) : Renaming.refl.connection c = c := by
  cases c <;> rfl

theorem connection_trans (r' : Renaming) (c : Connection) :
    (r.trans r').connection c = r'.connection (r.connection c) := by
  cases c <;> rfl

end Renaming

namespace Topology

variable {t u v : Topology} {r r' : Renaming} {c c' : Connection}

/-- A topology has the connections of another one under new names, in any order. -/
def RenamedBy (r : Renaming) (t u : Topology) : Prop :=
  (t.map r.connection).Perm u

namespace RenamedBy

protected theorem refl (t : Topology) : RenamedBy .refl t t := by
  have hsame : t.map Renaming.refl.connection = t := by
    simp [funext Renaming.connection_refl]
  rw [RenamedBy, hsame]

protected theorem trans (h : RenamedBy r t u) (h' : RenamedBy r' u v) :
    RenamedBy (r.trans r') t v := by
  have hboth : t.map (r.trans r').connection = (t.map r.connection).map r'.connection := by
    rw [List.map_map]
    exact List.map_congr_left fun c _ ↦ r.connection_trans r' c
  rw [RenamedBy, hboth]
  exact (List.Perm.map _ h).trans h'

theorem append_left (h : RenamedBy r t u) (hfixed : ∀ c ∈ v, r.connection c = c) :
    RenamedBy r (v ++ t) (v ++ u) := by
  have hsame : v.map r.connection = v :=
    (List.map_congr_left hfixed).trans (List.map_id v)
  rw [RenamedBy, List.map_append, hsame]
  exact List.Perm.append_left v h

theorem mem_edges (h : RenamedBy r t u) {e : Edge} : r.edge e ∈ u.edges ↔ e ∈ t.edges := by
  have hedges : Topology.edges (t.map r.connection) = t.edges.map r.edge := by
    simp only [Topology.edges, List.flatMap_map, List.map_flatMap, r.edges_connection]
  have hperm : (t.edges.map r.edge).Perm u.edges := hedges ▸ List.Perm.flatMap_right _ h
  rw [← hperm.mem_iff, List.mem_map_of_injective r.edge_injective]

theorem mem_bridges (h : RenamedBy r t u) {b' : Bridge} :
    b' ∈ u.bridges ↔ ∃ b ∈ t.bridges, r.bridge b = b' := by
  have hbridges : Topology.bridges (t.map r.connection) = t.bridges.map r.bridge := by
    simp only [Topology.bridges, List.filterMap_map, List.map_filterMap]
    exact congrArg (List.filterMap · t) (funext r.bridge?_connection)
  have hperm : (t.bridges.map r.bridge).Perm u.bridges :=
    hbridges ▸ List.Perm.filterMap _ h
  rw [← hperm.mem_iff, List.mem_map]

/-- The new names of the nodes are an isomorphism of the wirings. -/
def wiring (h : RenamedBy r t u) : t.wiring ≃g u.wiring where
  toEquiv := r.nodes
  map_rel_iff' := by
    intro a b
    have hab : (r.nodes a, r.nodes b) ∈ u.edges ↔ (a, b) ∈ t.edges := h.mem_edges (e := (a, b))
    have hba : (r.nodes b, r.nodes a) ∈ u.edges ↔ (b, a) ∈ t.edges := h.mem_edges (e := (b, a))
    simp only [Topology.wiring, fromRel_adj, hab, hba, ne_eq, EmbeddingLike.apply_eq_iff_eq]

theorem reachable_iff (h : RenamedBy r t u) {a b : NodeId} :
    u.wiring.Reachable (r.nodes a) (r.nodes b) ↔ t.wiring.Reachable a b :=
  h.wiring.reachable_iff

theorem mem_support (h : RenamedBy r t u) {node : NodeId} :
    r.nodes node ∈ u.wiring.support ↔ node ∈ t.wiring.support := by
  simp only [SimpleGraph.mem_support]
  constructor
  · rintro ⟨other, hadj⟩
    refine ⟨r.nodes.symm other, h.wiring.map_adj_iff.1 ?_⟩
    change u.wiring.Adj (r.nodes node) (r.nodes (r.nodes.symm other))
    rwa [r.nodes.apply_symm_apply]
  · rintro ⟨other, hadj⟩
    exact ⟨r.nodes other, h.wiring.map_adj_iff.2 hadj⟩

/-- The laws do not depend on names or on the order of the connections. -/
theorem lawful (h : RenamedBy r t u) (hl : t.Lawful) : u.Lawful := by
  constructor
  case apart =>
    intro b' hb' hreach
    obtain ⟨b, hb, rfl⟩ := h.mem_bridges.1 hb'
    exact hl.apart b hb (h.reachable_iff.1 hreach)
  case single =>
    intro b' hb' c' hc' hreach
    obtain ⟨b, hb, rfl⟩ := h.mem_bridges.1 hb'
    obtain ⟨c, hc, rfl⟩ := h.mem_bridges.1 hc'
    rw [hl.single b hb c hc (h.reachable_iff.1 hreach)]

end RenamedBy

/-- What breaks a law goes on to break it when connections come. -/
theorem Lawful.of_append (h : Lawful (t ++ u)) : t.Lawful := by
  have hwiring : t.wiring ≤ wiring (t ++ u) := by
    intro a b hadj
    simp only [wiring, fromRel_adj, edges_append, List.mem_append] at hadj ⊢
    exact ⟨hadj.1, hadj.2.imp .inl .inl⟩
  have hbridges {b : Bridge} (hb : b ∈ t.bridges) : b ∈ bridges (t ++ u) := by
    rw [bridges, List.filterMap_append]
    exact List.mem_append_left _ hb
  constructor
  case apart =>
    intro b hb hreach
    exact h.apart b (hbridges hb) (hreach.mono hwiring)
  case single =>
    intro b hb c hc hreach
    exact h.single b (hbridges hb) c (hbridges hc) (hreach.mono hwiring)

end Topology

namespace Partition

variable {β : Type} {p q : Partition β} {t u : Topology} {r : Renaming}
  {rename : SubgraphId → SubgraphId}

/-- Two partitions are the same under new names of nodes, queues and subgraphs. -/
structure Alike (r : Renaming) (rename : SubgraphId → SubgraphId) (p q : Partition β) :
    Prop where
  of_nodes : ∀ node, q.of (r.nodes node) = (p.of node).map rename
  roots : (p.roots.map rename).Perm q.roots
  edges : ∀ s ∈ p.roots, ∀ e, r.edge e ∈ q.edges (rename s) ↔ e ∈ p.edges s
  feeds : ∀ s ∈ p.roots, ∀ s' ∈ p.roots, q.Feeds (rename s) (rename s') ↔ p.Feeds s s'
  inbound : ∀ s ∈ p.roots, q.inbound (rename s) = (p.inbound s).map r.queues

namespace Represents

/-- The nodes of a subgraph are together under their new names as well. -/
theorem exists_rename (hp : p.Represents t) (hq : q.Represents u)
    (h : Topology.RenamedBy r t u) : ∃ rename : SubgraphId → SubgraphId,
      ∀ {node s}, p.of node = some s → q.of (r.nodes node) = some (rename s) := by
  have heach (s : SubgraphId) : ∃ s' : SubgraphId,
      ∀ node, p.of node = some s → q.of (r.nodes node) = some s' := by
    by_cases hs : ∃ first, p.of first = some s
    · obtain ⟨first, hfirst⟩ := hs
      obtain ⟨s', hs'⟩ := hq.tracks.mem_support.1
        (h.mem_support.2 (hp.tracks.mem_support.2 ⟨s, hfirst⟩))
      refine ⟨s', fun node hnode ↦ hq.tracks.of_reachable hs' ?_⟩
      exact h.reachable_iff.2 ((hp.tracks.eq_iff hfirst hnode).1 rfl)
    · exact ⟨s, fun node hnode ↦ absurd ⟨node, hnode⟩ hs⟩
  choose rename hrename using heach
  exact ⟨rename, fun hnode ↦ hrename _ _ hnode⟩

section Rename

variable (hp : p.Represents t) (hq : q.Represents u) (h : Topology.RenamedBy r t u)
  (hrename : ∀ {node s}, p.of node = some s → q.of (r.nodes node) = some (rename s))

include hp hq h hrename

theorem of_nodes (node : NodeId) : q.of (r.nodes node) = (p.of node).map rename := by
  rcases hnode : p.of node with _ | s
  · rw [Option.map_none, Option.eq_none_iff_forall_ne_some]
    intro s' hs'
    obtain ⟨s, hs⟩ := hp.tracks.mem_support.1
      (h.mem_support.1 (hq.tracks.mem_support.2 ⟨s', hs'⟩))
    rw [hnode] at hs
    cases hs
  · exact hrename hnode

theorem of_nodes_eq_iff {node : NodeId} {s : SubgraphId} (hs : s ∈ p.roots) :
    q.of (r.nodes node) = some (rename s) ↔ p.of node = some s := by
  constructor
  · intro hnode
    obtain ⟨first, hfirst⟩ := hp.wellFormed.mem_roots.1 hs
    apply hp.tracks.of_reachable hfirst
    exact h.reachable_iff.1 ((hq.tracks.eq_iff (hrename hfirst) hnode).1 rfl)
  · exact hrename

theorem perm_roots : (p.roots.map rename).Perm q.roots := by
  have hinjective : ∀ s ∈ p.roots, ∀ s' ∈ p.roots, rename s = rename s' → s = s' := by
    intro s hs s' hs' heq
    obtain ⟨node, hnode⟩ := hp.wellFormed.mem_roots.1 hs
    have hnode' := (hp.of_nodes_eq_iff hq h hrename hs').1 (heq ▸ hrename hnode)
    exact Option.some.inj (hnode.symm.trans hnode')
  rw [List.perm_ext_iff_of_nodup (List.Nodup.map_on hinjective (WellFormed.nodup_roots p))
    (WellFormed.nodup_roots q)]
  intro s'
  rw [List.mem_map]
  constructor
  · rintro ⟨s, hs, rfl⟩
    obtain ⟨node, hnode⟩ := hp.wellFormed.mem_roots.1 hs
    exact hq.wellFormed.mem_roots.2 ⟨_, hrename hnode⟩
  · intro hs'
    obtain ⟨node, hnode⟩ := hq.wellFormed.mem_roots.1 hs'
    rw [← r.nodes.apply_symm_apply node, hp.of_nodes hq h hrename, Option.map_eq_some_iff] at hnode
    obtain ⟨s, hs, rfl⟩ := hnode
    exact ⟨s, hp.wellFormed.mem_roots.2 ⟨_, hs⟩, rfl⟩

theorem feeds_rename {s s' : SubgraphId} (hs : s ∈ p.roots) (hs' : s' ∈ p.roots) :
    q.Feeds (rename s) (rename s') ↔ p.Feeds s s' := by
  rw [hq.feeds, hp.feeds]
  constructor
  · rintro ⟨b', hb', hwriter, hreader⟩
    obtain ⟨b, hb, rfl⟩ := h.mem_bridges.1 hb'
    exact ⟨b, hb, (hp.of_nodes_eq_iff hq h hrename hs).1 hwriter,
      (hp.of_nodes_eq_iff hq h hrename hs').1 hreader⟩
  · rintro ⟨b, hb, hwriter, hreader⟩
    exact ⟨r.bridge b, h.mem_bridges.2 ⟨b, hb, rfl⟩, hrename hwriter, hrename hreader⟩

theorem inbound_rename {s : SubgraphId} (hs : s ∈ p.roots) :
    q.inbound (rename s) = (p.inbound s).map r.queues := by
  obtain ⟨node, hnode⟩ := hp.wellFormed.mem_roots.1 hs
  ext queue
  rw [hq.inbound, Option.map_eq_some_iff, hq.wellFormed.find_of (hrename hnode)]
  simp only [hp.inbound, hp.wellFormed.find_of hnode]
  constructor
  · rintro ⟨b', hb', rfl, hreader⟩
    obtain ⟨b, hb, rfl⟩ := h.mem_bridges.1 hb'
    exact ⟨b.queue, ⟨b, hb, rfl, (hp.of_nodes_eq_iff hq h hrename hs).1 hreader⟩, rfl⟩
  · rintro ⟨_, ⟨b, hb, rfl, hreader⟩, rfl⟩
    exact ⟨r.bridge b, h.mem_bridges.2 ⟨b, hb, rfl⟩, rfl, hrename hreader⟩

theorem mem_edges_rename (hrecords : p.Records t.edges) (hrecords' : q.Records u.edges)
    {s : SubgraphId} (hs : s ∈ p.roots) {e : Edge} :
    r.edge e ∈ q.edges (rename s) ↔ e ∈ p.edges s := by
  obtain ⟨node, hnode⟩ := hp.wellFormed.mem_roots.1 hs
  have hsurvives := hp.wellFormed.of_survives hnode
  have hsurvives' := hq.wellFormed.of_survives (hrename hnode)
  rw [hq.mem_edges_iff hrecords' hsurvives', hp.mem_edges_iff hrecords hsurvives, h.mem_edges]
  exact and_congr_right fun _ ↦ and_congr (hp.of_nodes_eq_iff hq h hrename hs)
    (hp.of_nodes_eq_iff hq h hrename hs)

end Rename

/-- Partitions are alike if they represent the same topology under new names. -/
theorem exists_alike (hp : p.Represents t) (hq : q.Represents u) (hrecords : p.Records t.edges)
    (hrecords' : q.Records u.edges) (h : Topology.RenamedBy r t u) :
    ∃ rename, p.Alike r rename q := by
  obtain ⟨rename, hrename⟩ := hp.exists_rename hq h
  refine ⟨rename, ?_⟩
  constructor
  case of_nodes => exact hp.of_nodes hq h hrename
  case roots => exact hp.perm_roots hq h hrename
  case edges => exact fun s hs e ↦ hp.mem_edges_rename hq h hrename hrecords hrecords' hs
  case feeds => exact fun s hs s' hs' ↦ hp.feeds_rename hq h hrename hs hs'
  case inbound => exact fun s hs ↦ hp.inbound_rename hq h hrename hs

end Represents

end Partition

end SignalFlow
