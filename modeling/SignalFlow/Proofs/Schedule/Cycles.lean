import Mathlib.Data.Set.Finite.Basic
import Mathlib.Order.WellFounded
import SignalFlow.Proofs.Schedule

/-!
# Edges without a cycle

A node is taken behind all nodes with edges into it, so the places of nodes in an order of
execution grow along the edges, and no way leads back. If on the other hand nodes are left that
never get ready, each of them has an edge from another one that is left, which cannot be of
finitely many nodes without a cycle.
-/

namespace SignalFlow.Schedule

open Relation

variable {nodes taken order : List NodeId} {edges : List Edge} {s : State}

/-- Whether no way along edges leads from a node back to it. -/
def Acyclic (edges : List Edge) : Prop :=
  ∀ node, ¬ TransGen (fun a b ↦ (a, b) ∈ edges) node node

theorem inner_eq_self (hinner : ∀ e ∈ edges, e.1 ∈ nodes ∧ e.2 ∈ nodes) :
    inner nodes edges = edges := by
  refine List.filter_eq_self.2 fun e he ↦ ?_
  obtain ⟨hsource, htarget⟩ := hinner e he
  simp [hsource, htarget]

theorem mem_inner_iff {e : Edge} :
    e ∈ inner nodes edges ↔ e ∈ edges ∧ e.1 ∈ nodes ∧ e.2 ∈ nodes := by
  simp [inner]

/-- A node that is taken stands behind the nodes with edges into it. -/
theorem Between.mem_before (h : Between nodes edges taken s) (hinner : ∀ e ∈ edges, e.2 ∈ nodes)
    {fuel : Nat} {before behind : List NodeId} {e : Edge} (he : e ∈ edges)
    (hsplit : (Schedule.takeReady edges fuel s).1 = before ++ e.2 :: behind) :
    e.1 ∈ taken ++ before := by
  induction fuel generalizing taken s before with
  | zero => simp [Schedule.takeReady] at hsplit
  | succ fuel ih =>
    unfold Schedule.takeReady at hsplit
    split at hsplit
    · simp at hsplit
    · next m ready hs =>
      cases before with
      | nil =>
        obtain ⟨rfl, -⟩ := List.cons.inj hsplit
        rw [List.append_nil]
        exact h.mem_taken he (hs ▸ List.mem_cons_self)
      | cons first before =>
        obtain ⟨rfl, hrest⟩ := List.cons.inj hsplit
        rw [List.append_cons]
        exact ih (h.take hs hinner) hrest

/-- The places of nodes in an order of execution grow along the edges. -/
theorem idxOf_lt_of_order (hnodes : nodes.Nodup) (h : Schedule.order nodes edges = .ok order)
    {e : Edge} (he : e ∈ inner nodes edges) : order.idxOf e.1 < order.idxOf e.2 := by
  have hperm := perm_of_order hnodes h
  obtain ⟨before, behind, hsplit⟩ :=
    List.append_of_mem (hperm.mem_iff.2 (snd_mem_of_mem_inner he))
  have hbefore : e.1 ∈ before := by
    unfold Schedule.order at h
    simp only at h
    split at h
    · cases h
      exact (between_start hnodes (inner nodes edges)).mem_before
        (fun _ ↦ snd_mem_of_mem_inner) he hsplit
    · cases h
  have hnew : e.2 ∉ before := by
    have hnodup := hsplit ▸ hperm.nodup_iff.2 hnodes
    exact fun hmem ↦ List.disjoint_of_nodup_append hnodup hmem List.mem_cons_self
  calc order.idxOf e.1
    _ = before.idxOf e.1 := by rw [hsplit, List.idxOf_append_of_mem hbefore]
    _ < before.length := List.idxOf_lt_length_of_mem hbefore
    _ = order.idxOf e.2 := by rw [hsplit, List.idxOf_append_of_notMem hnew]; simp

theorem acyclic_of_order (hnodes : nodes.Nodup) (h : Schedule.order nodes edges = .ok order) :
    Acyclic (inner nodes edges) := by
  have hgrow {a b : NodeId} (hway : TransGen (fun a b ↦ (a, b) ∈ inner nodes edges) a b) :
      order.idxOf a < order.idxOf b := by
    induction hway with
    | single hedge => exact idxOf_lt_of_order hnodes h hedge
    | tail _ hedge ih => exact ih.trans (idxOf_lt_of_order hnodes h hedge)
  exact fun node hway ↦ lt_irrefl _ (hgrow hway)

theorem ready_eq_nil_of_length_lt {fuel : Nat}
    (h : (takeReady edges fuel s).1.length < fuel) : (takeReady edges fuel s).2.ready = [] := by
  induction fuel generalizing s with
  | zero => exact absurd h (Nat.not_lt_zero _)
  | succ fuel ih =>
    unfold Schedule.takeReady at h ⊢
    split
    · next hs => exact hs
    · next m ready hs =>
      rw [hs] at h
      exact ih (Nat.lt_of_succ_lt_succ h)

/-- When no node is ready, edges are left into a node if and only if it is left. -/
theorem Between.degree_ne_zero_iff (h : Between nodes edges taken s) (hready : s.ready = [])
    {node : NodeId} (hnode : node ∈ nodes) : s.degree node ≠ 0 ↔ node ∉ taken := by
  refine ⟨fun hdegree hmem ↦ hdegree (h.released node hmem), fun hleft hzero ↦ ?_⟩
  have hmem := h.mem_ready.2 ⟨hnode, hleft, hzero⟩
  rw [hready] at hmem
  cases hmem

/-- A node that is left when no node is ready has an edge from another one that is left. -/
theorem Between.exists_left (h : Between nodes edges taken s) (hready : s.ready = [])
    {node : NodeId} (hnode : node ∈ nodes) (hleft : node ∉ taken) :
    ∃ before, (before, node) ∈ edges ∧ before ∉ taken := by
  have hdegree := (h.degree_ne_zero_iff hready hnode).2 hleft
  rw [h.degree, degreeIn, Ne, List.countP_eq_zero] at hdegree
  push Not at hdegree
  obtain ⟨e, he, htarget⟩ := hdegree
  obtain ⟨hedge, hsource⟩ := List.mem_filter.1 he
  have htarget : e.2 = node := beq_iff_eq.1 htarget
  exact ⟨e.1, htarget ▸ hedge, of_decide_eq_true hsource⟩

/-- Among finitely many nodes without a cycle one has no edges from the others. -/
theorem Acyclic.exists_first (h : Acyclic edges) {left : List NodeId} (hleft : left ≠ []) :
    ∃ node ∈ left, ∀ before ∈ left, (before, node) ∉ edges := by
  let way (a b : {n // n ∈ left}) : Prop := TransGen (fun a b ↦ (a, b) ∈ edges) a.1 b.1
  have htrans : IsTrans _ way := ⟨fun _ _ _ hab hbc ↦ hab.trans hbc⟩
  have hirrefl : Std.Irrefl way := ⟨fun a ↦ h a.1⟩
  have hfinite : Finite {n // n ∈ left} := List.finite_toSet left
  have hfounded : WellFounded way := Finite.wellFounded_of_trans_of_irrefl way
  obtain ⟨first, hfirst⟩ := List.exists_mem_of_ne_nil left hleft
  obtain ⟨node, -, hmin⟩ := hfounded.has_min Set.univ ⟨⟨first, hfirst⟩, trivial⟩
  refine ⟨node.1, node.2, fun before hbefore hedge ↦ ?_⟩
  exact hmin ⟨before, hbefore⟩ trivial (.single hedge)

end SignalFlow.Schedule
