import Mathlib.Combinatorics.SimpleGraph.Connectivity.Connected
import Mathlib.Data.Set.Card
import SignalFlow.Proofs.Partition.Join

/-!
# Subgraphs as connected components

A partition tracks an undirected graph of nodes if the nodes that have a subgraph are those with
an edge, and two of them share a subgraph exactly when one can be reached from the other.
Joining two nodes tracks the graph with one more edge. The subgraphs are then as many as the
components that have an edge.
-/

namespace SignalFlow

open SimpleGraph

section SupEdge

variable {V : Type} {G : SimpleGraph V} {a b m n : V}

/-- A way through the new edge goes through one of its ends on both sides. -/
theorem reachable_sup_edge : (G ⊔ edge a b).Reachable m n ↔
    G.Reachable m n ∨
      (G.Reachable m a ∨ G.Reachable m b) ∧ (G.Reachable n a ∨ G.Reachable n b) := by
  have hle : G ≤ G ⊔ edge a b := le_sup_left
  constructor
  · intro h
    rw [reachable_iff_reflTransGen] at h
    induction h with
    | refl => exact .inl .rfl
    | tail _ hadj ih =>
      rcases hadj with hadj | hadj
      · rcases ih with h | ⟨hm, hx⟩
        · exact .inl (h.trans hadj.reachable)
        · exact .inr ⟨hm, hx.imp hadj.symm.reachable.trans hadj.symm.reachable.trans⟩
      · rw [edge_adj] at hadj
        rcases hadj with ⟨⟨rfl, rfl⟩ | ⟨rfl, rfl⟩, -⟩
        · exact .inr ⟨ih.elim .inl And.left, .inr .rfl⟩
        · exact .inr ⟨ih.elim .inr And.left, .inl .rfl⟩
  · have hab : (G ⊔ edge a b).Reachable a b := by
      by_cases h : a = b
      · exact h ▸ .rfl
      · exact Adj.reachable (.inr ((edge_adj ..).2 ⟨.inl ⟨rfl, rfl⟩, h⟩))
    have hend {x : V} (h : G.Reachable x a ∨ G.Reachable x b) : (G ⊔ edge a b).Reachable x a :=
      h.elim (Reachable.mono hle) fun h ↦ (h.mono hle).trans hab.symm
    rintro (h | ⟨hm, hn⟩)
    · exact h.mono hle
    · exact (hend hm).trans (hend hn).symm

theorem mem_support_sup_edge (hab : a ≠ b) :
    n ∈ (G ⊔ edge a b).support ↔ n ∈ G.support ∨ n = a ∨ n = b := by
  simp only [mem_support, sup_adj, exists_or, edge_adj]
  refine or_congr Iff.rfl ⟨?_, ?_⟩
  · rintro ⟨_, ⟨rfl, -⟩ | ⟨rfl, -⟩, -⟩
    · exact .inl rfl
    · exact .inr rfl
  · rintro (rfl | rfl)
    · exact ⟨b, .inl ⟨rfl, rfl⟩, hab⟩
    · exact ⟨a, .inr ⟨rfl, rfl⟩, hab.symm⟩

/-- An edge to a node that was reached from nowhere else does not help other nodes. -/
theorem reachable_sup_edge_of_isolated (hb : ∀ x, G.Reachable x b → x = b) (hm : m ≠ b)
    (hn : n ≠ b) : (G ⊔ edge a b).Reachable m n ↔ G.Reachable m n := by
  rw [reachable_sup_edge, or_iff_left_iff_imp]
  intro h
  have hma := h.1.resolve_right fun hr ↦ hm (hb m hr)
  have hna := h.2.resolve_right fun hr ↦ hn (hb n hr)
  exact hma.trans hna.symm

end SupEdge

namespace Partition

variable {β : Type} {p q : Partition β} {G : SimpleGraph NodeId} {a b m n : NodeId}
  {s t into : SubgraphId}

/-- The division into subgraphs is that of a graph into components, but for nodes without
edges. -/
structure Tracks (p : Partition β) (G : SimpleGraph NodeId) : Prop where
  mem_support : ∀ {node}, node ∈ G.support ↔ ∃ s, p.of node = some s
  eq_iff : ∀ {m n s t}, p.of m = some s → p.of n = some t → (s = t ↔ G.Reachable m n)

theorem tracks_empty : (empty : Partition β).Tracks ⊥ where
  mem_support := by simp [empty, of]
  eq_iff h := nomatch h

namespace Tracks

theorem congr (h : p.Tracks G) (hof : ∀ node, q.of node = p.of node) : q.Tracks G where
  mem_support {node} := by rw [hof, h.mem_support]
  eq_iff {m n _ _} hm hn := h.eq_iff (hof m ▸ hm) (hof n ▸ hn)

/-- What can be reached from a node of a subgraph is in that subgraph. -/
theorem of_reachable (h : p.Tracks G) (hm : p.of m = some s) (hr : G.Reachable m n) :
    p.of n = some s := by
  by_cases hmn : m = n
  · exact hmn ▸ hm
  · obtain ⟨t, ht⟩ := h.mem_support.1 (mem_support_of_reachable (Ne.symm hmn) hr.symm)
    rw [ht, (h.eq_iff hm ht).2 hr]

/-- A node without a subgraph is reached from nowhere else. -/
theorem eq_of_reachable (h : p.Tracks G) (hn : p.of n = none) (hr : G.Reachable m n) : m = n := by
  by_contra hmn
  obtain ⟨t, ht⟩ := h.mem_support.1 (mem_support_of_reachable (Ne.symm hmn) hr.symm)
  rw [hn] at ht
  cases ht

theorem reachable_iff_of_eq (h : p.Tracks G) (hm : p.of m = some s) :
    G.Reachable m n ↔ p.of n = some s :=
  ⟨h.of_reachable hm, fun hn ↦ (h.eq_iff hm hn).1 rfl⟩

/-- One more edge connects the subgraphs of its ends. -/
theorem reachable_sup_edge_iff (h : p.Tracks G) (hm : p.of m = some s) (hn : p.of n = some t) :
    (G ⊔ edge a b).Reachable m n ↔ s = t ∨ p.Touches a b s ∧ p.Touches a b t := by
  rw [reachable_sup_edge, h.eq_iff hm hn, Touches, Touches]
  simp only [h.reachable_iff_of_eq hm, h.reachable_iff_of_eq hn]

/-- The joined subgraph consists of the components of the two nodes. -/
theorem of_eq_into_iff (h : p.Tracks G) (hj : Joined a b into p q) :
    q.of n = some into ↔ G.Reachable n a ∨ G.Reachable n b := by
  constructor
  · intro hn
    rcases ht : p.of n with _ | t
    · by_cases hna : n = a
      · exact .inl (hna ▸ .rfl)
      · by_cases hnb : n = b
        · exact .inr (hnb ▸ .rfl)
        · rw [hj.other ht hna hnb] at hn
          cases hn
    · have htouch : p.Touches a b t := by
        have hfuse : p.fuse a b into t = into := Option.some.inj ((hj.renames.of ht).symm.trans hn)
        by_contra hnot
        rw [fuse, if_neg hnot] at hfuse
        subst hfuse
        exact hj.into_eq.elim hnot fun hnew ↦ hnew.2.2 n ht
      exact htouch.imp (h.reachable_iff_of_eq ht).2 (h.reachable_iff_of_eq ht).2
  · have key (c : NodeId) (hc : q.of c = some into) (htouch : ∀ t, p.of c = some t →
        p.Touches a b t) (hr : G.Reachable n c) : q.of n = some into := by
      rcases ht : p.of n with _ | t
      · rwa [h.eq_of_reachable ht hr.symm] at hc
      · rw [hj.renames.of ht, fuse, if_pos (htouch t (h.of_reachable ht hr))]
    rintro (hr | hr)
    · exact key a hj.source (fun _ ↦ .inl) hr
    · exact key b hj.target (fun _ ↦ .inr) hr

theorem of_of_ne_into (h : p.Tracks G) (hj : Joined a b into p q) (hn : q.of n = some s)
    (hs : s ≠ into) : p.of n = some s := by
  have hnot : q.of n ≠ some into := fun h ↦ hs (Option.some.inj (hn.symm.trans h))
  rw [Ne, h.of_eq_into_iff hj, not_or] at hnot
  rcases ht : p.of n with _ | t
  · rw [hj.other ht (fun hna ↦ hnot.1 (hna ▸ .rfl)) fun hnb ↦ hnot.2 (hnb ▸ .rfl)] at hn
    cases hn
  · have hfuse := Option.some.inj ((hj.renames.of ht).symm.trans hn)
    rw [fuse] at hfuse
    split at hfuse
    · exact absurd hfuse.symm hs
    · rw [hfuse]

theorem join (h : p.Tracks G) (hab : a ≠ b) (hj : Joined a b into p q) :
    q.Tracks (G ⊔ edge a b) where
  mem_support {node} := by
    rw [mem_support_sup_edge hab, h.mem_support]
    constructor
    · rintro (⟨s, hs⟩ | rfl | rfl)
      · exact ⟨_, hj.renames.of hs⟩
      · exact ⟨into, hj.source⟩
      · exact ⟨into, hj.target⟩
    · rintro ⟨s, hs⟩
      by_contra hnot
      simp only [not_or, not_exists] at hnot
      rw [hj.other (Option.eq_none_iff_forall_ne_some.2 hnot.1) hnot.2.1 hnot.2.2] at hs
      cases hs
  eq_iff {m n s t} hm hn := by
    rw [reachable_sup_edge, ← h.of_eq_into_iff hj, ← h.of_eq_into_iff hj, hm, hn,
      Option.some_inj, Option.some_inj]
    by_cases hs : s = into <;> by_cases ht : t = into
    · simp [hs, ht]
    · have hm' : G.Reachable m a ∨ G.Reachable m b := (h.of_eq_into_iff hj).1 (hs ▸ hm)
      have hn' : ¬ (G.Reachable n a ∨ G.Reachable n b) := fun hr ↦
        ht (Option.some.inj (hn.symm.trans ((h.of_eq_into_iff hj).2 hr)))
      have hmn : ¬ G.Reachable m n := fun hr ↦ hn' (hm'.imp hr.symm.trans hr.symm.trans)
      simp [hs, ht, hmn, Ne.symm ht]
    · have hn' : G.Reachable n a ∨ G.Reachable n b := (h.of_eq_into_iff hj).1 (ht ▸ hn)
      have hm' : ¬ (G.Reachable m a ∨ G.Reachable m b) := fun hr ↦
        hs (Option.some.inj (hm.symm.trans ((h.of_eq_into_iff hj).2 hr)))
      have hmn : ¬ G.Reachable m n := fun hr ↦ hm' (hn'.imp hr.trans hr.trans)
      simp [hs, ht, hmn]
    · simp [hs, ht, h.eq_iff (h.of_of_ne_into hj hm hs) (h.of_of_ne_into hj hn ht)]

/-- There are as many subgraphs as components with an edge. -/
theorem length_roots (h : p.Tracks G) (hp : p.WellFormed) :
    p.roots.length = (G.connectedComponentMk '' G.support).ncard := by
  have hlength : p.roots.length = {s | s ∈ p.roots}.ncard := by
    rw [← List.coe_toFinset, Set.ncard_coe_finset,
      List.toFinset_card_of_nodup (WellFormed.nodup_roots p)]
  have hnode (s : SubgraphId) (hs : s ∈ p.roots) : ∃ node, p.of node = some s :=
    hp.mem_roots.1 hs
  rw [hlength]
  refine Set.ncard_congr (fun s hs ↦ G.connectedComponentMk (hnode s hs).choose) ?_ ?_ ?_
  · intro s hs
    exact ⟨_, h.mem_support.2 ⟨s, (hnode s hs).choose_spec⟩, rfl⟩
  · intro s t hs ht hst
    exact (h.eq_iff (hnode s hs).choose_spec (hnode t ht).choose_spec).2
      (ConnectedComponent.eq.1 hst)
  · rintro _ ⟨n, hn, rfl⟩
    obtain ⟨s, hs⟩ := h.mem_support.1 hn
    have hmem : s ∈ p.roots := hp.mem_roots.2 ⟨n, hs⟩
    exact ⟨s, hmem, ConnectedComponent.eq.2 ((h.eq_iff (hnode s hmem).choose_spec hs).1 rfl)⟩

end Tracks

end Partition

end SignalFlow
