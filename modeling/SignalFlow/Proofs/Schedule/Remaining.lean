import SignalFlow.Proofs.Schedule.Cycles

/-!
# The nodes that never get ready

A node on a cycle waits for itself, and a node behind a cycle waits for the nodes on it. No other
node is left when the loop ends: a node that is left has an edge from another one that is left,
and going backward along such edges comes to a cycle. So an order exists if and only if there is no
cycle.
-/

namespace SignalFlow.Schedule

open Relation

variable {nodes taken left remaining : List NodeId} {edges : List Edge} {s : State} {node : NodeId}

/-- Whether a node lies on a cycle, or a way along edges leads to it from a node on a cycle. -/
def BehindCycle (edges : List Edge) (node : NodeId) : Prop :=
  ∃ first, TransGen (fun a b ↦ (a, b) ∈ edges) first first ∧
    ReflTransGen (fun a b ↦ (a, b) ∈ edges) first node

/-- What is behind a cycle has an edge from something behind it. -/
theorem BehindCycle.exists_before (h : BehindCycle edges node) :
    ∃ before, (before, node) ∈ edges ∧ BehindCycle edges before := by
  obtain ⟨first, hcycle, hway⟩ := h
  cases hway with
  | refl =>
    obtain ⟨before, hway, hedge⟩ := TransGen.tail'_iff.1 hcycle
    exact ⟨before, hedge, node, hcycle, hway⟩
  | tail hway hedge => exact ⟨_, hedge, first, hcycle, hway⟩

/-- Nodes each of which has an edge from one of them are behind cycles. -/
theorem behindCycle_of_forall_exists (h : ∀ n ∈ left, ∃ before ∈ left, (before, n) ∈ edges)
    (hnode : node ∈ left) : BehindCycle edges node := by
  classical
  by_contra hnone
  let leadsHere (n : NodeId) : Prop := ReflTransGen (fun a b ↦ (a, b) ∈ edges) n node
  -- The edges on ways to the node have no cycle, so one of the nodes on such ways is the first.
  have hacyclic : Acyclic (edges.filter fun e ↦ leadsHere e.2) := by
    intro first hcycle
    obtain ⟨before, -, hlast⟩ := TransGen.tail'_iff.1 hcycle
    have hcycle : TransGen (fun a b ↦ (a, b) ∈ edges) first first :=
      TransGen.mono (fun _ _ ↦ List.mem_of_mem_filter) first first hcycle
    exact hnone ⟨first, hcycle, of_decide_eq_true (List.mem_filter.1 hlast).2⟩
  have hleads : node ∈ left.filter (leadsHere ·) := List.mem_filter.2 ⟨hnode, decide_eq_true .refl⟩
  obtain ⟨first, hfirst, hedges⟩ := hacyclic.exists_first (List.ne_nil_of_mem hleads)
  obtain ⟨hleft, hway⟩ := List.mem_filter.1 hfirst
  obtain ⟨before, hbefore, hedge⟩ := h first hleft
  have hway : leadsHere first := of_decide_eq_true hway
  exact hedges before (List.mem_filter.2 ⟨hbefore, decide_eq_true (.head hedge hway)⟩)
    (List.mem_filter.2 ⟨hedge, decide_eq_true hway⟩)

/-- No node is taken that is behind a cycle. -/
theorem Between.not_behindCycle (h : Between nodes edges taken s)
    (hinner : ∀ e ∈ edges, e.2 ∈ nodes) (htaken : ∀ n ∈ taken, ¬ BehindCycle edges n)
    (fuel : Nat) : ∀ n ∈ (Schedule.takeReady edges fuel s).1, ¬ BehindCycle edges n := by
  induction fuel generalizing taken s with
  | zero => nofun
  | succ fuel ih =>
    unfold Schedule.takeReady
    split
    · nofun
    · next m ready hs =>
      -- A node that is ready has edges from taken nodes only.
      have hm : ¬ BehindCycle edges m := by
        intro hbehind
        obtain ⟨before, hedge, hbefore⟩ := hbehind.exists_before
        exact htaken before (h.mem_taken hedge (hs ▸ List.mem_cons_self)) hbefore
      refine List.forall_mem_cons.2 ⟨hm, ih (h.take hs hinner) ?_⟩
      rw [List.forall_mem_append, List.forall_mem_singleton]
      exact ⟨htaken, hm⟩

/-- A node is left when no node is ready if and only if it is behind a cycle. -/
theorem Between.not_mem_taken_iff (h : Between nodes edges taken s) (hready : s.ready = [])
    (hinner : ∀ e ∈ edges, e.1 ∈ nodes) (htaken : ∀ n ∈ taken, ¬ BehindCycle edges n)
    (hnode : node ∈ nodes) : node ∉ taken ↔ BehindCycle edges node := by
  refine ⟨fun hleft ↦ ?_, fun hbehind hmem ↦ htaken node hmem hbehind⟩
  have hmem {n : NodeId} : n ∈ nodes.filter (· ∉ taken) ↔ n ∈ nodes ∧ n ∉ taken := by simp
  refine behindCycle_of_forall_exists (fun n hn ↦ ?_) (hmem.2 ⟨hnode, hleft⟩)
  obtain ⟨before, hedge, hbefore⟩ := h.exists_left hready (hmem.1 hn).1 (hmem.1 hn).2
  exact ⟨before, hmem.2 ⟨hinner _ hedge, hbefore⟩, hedge⟩

/-- The nodes of a list that lie on a cycle of edges between them or behind one, each once and in
the order of the list. There is one at least. -/
structure Remains (nodes : List NodeId) (edges : List Edge) (remaining : List NodeId) : Prop where
  sublist : remaining.Sublist nodes
  nodup : remaining.Nodup
  mem_iff : ∀ node, node ∈ remaining ↔ BehindCycle (inner nodes edges) node
  ne_nil : remaining ≠ []

theorem mem_of_behindCycle (h : BehindCycle (inner nodes edges) node) : node ∈ nodes := by
  obtain ⟨before, hedge, -⟩ := h.exists_before
  exact snd_mem_of_mem_inner hedge

/-- What is reported if not all nodes get ready. -/
theorem remains_of_order (hnodes : nodes.Nodup)
    (h : Schedule.order nodes edges = .error remaining) : Remains nodes edges remaining := by
  have hstart := between_start hnodes (inner nodes edges)
  have hinner : ∀ e ∈ inner nodes edges, e.2 ∈ nodes := fun _ ↦ snd_mem_of_mem_inner
  obtain ⟨hbetween, hnodup, hmem⟩ := hstart.takeReady hinner nodes.length
  have htaken := hstart.not_behindCycle hinner nofun nodes.length
  have hstop (hfewer : (takeReady (inner nodes edges) nodes.length
      (start nodes (inner nodes edges))).1.length < nodes.length) :=
    ready_eq_nil_of_length_lt hfewer
  unfold Schedule.order at h
  simp only at h
  rw [List.nil_append] at hbetween
  generalize takeReady (inner nodes edges) nodes.length (start nodes (inner nodes edges)) = last
    at *
  obtain ⟨taken, s⟩ := last
  split at h
  · cases h
  · next hlength =>
    cases h
    have hsub : taken ⊆ nodes := fun n hn ↦ (hmem n hn).1
    have hfewer : taken.length < nodes.length :=
      lt_of_le_of_ne (List.Nodup.subperm hnodup hsub).length_le hlength
    have hiff {n : NodeId} (hn : n ∈ nodes) :
        (s.degree n != 0) = true ↔ BehindCycle (inner nodes edges) n := by
      rw [bne_iff_ne, hbetween.degree_ne_zero_iff (hstop hfewer) hn]
      exact hbetween.not_mem_taken_iff (hstop hfewer) (fun e he ↦ (mem_inner_iff.1 he).2.1)
        htaken hn
    constructor
    case sublist => exact List.filter_sublist
    case nodup => exact hnodes.filter _
    case mem_iff =>
      intro n
      rw [List.mem_filter]
      refine ⟨fun hn ↦ (hiff hn.1).1 hn.2, fun hbehind ↦ ?_⟩
      have hn := mem_of_behindCycle hbehind
      exact ⟨hn, (hiff hn).2 hbehind⟩
    case ne_nil =>
      intro hnone
      have hall : nodes ⊆ taken := by
        intro n hn
        by_contra hleft
        have hdegree := (hbetween.degree_ne_zero_iff (hstop hfewer) hn).2 hleft
        exact List.filter_eq_nil_iff.1 hnone n hn (bne_iff_ne.2 hdegree)
      exact hfewer.not_ge (hnodes.subperm hall).length_le

theorem exists_order_of_acyclic (hnodes : nodes.Nodup) (h : Acyclic (inner nodes edges)) :
    ∃ order, Schedule.order nodes edges = .ok order := by
  cases horder : Schedule.order nodes edges with
  | ok order => exact ⟨order, rfl⟩
  | error remaining =>
    have hremains := remains_of_order hnodes horder
    obtain ⟨node, hnode⟩ := List.exists_mem_of_ne_nil remaining hremains.ne_nil
    obtain ⟨first, hcycle, -⟩ := (hremains.mem_iff node).1 hnode
    exact absurd hcycle (h first)

/-- Nodes have an order of execution if and only if the edges between them have no cycle. -/
theorem exists_order_iff (hnodes : nodes.Nodup) :
    (∃ order, Schedule.order nodes edges = .ok order) ↔ Acyclic (inner nodes edges) :=
  ⟨fun ⟨_, h⟩ ↦ acyclic_of_order hnodes h, exists_order_of_acyclic hnodes⟩

end SignalFlow.Schedule
