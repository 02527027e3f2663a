import Mathlib.Data.List.Dedup
import SignalFlow.Proofs.Schedule.Remaining

/-!
# Nodes that get ready together

Who is ready first is taken first. Nodes that are ready at the start are taken in the order of the
node list. Nodes that get ready when another one is taken do so in the order in which its last edges
to them are recorded. This may be another order than that of the node list, which the merging of
subgraphs puts together on its own.
-/

namespace SignalFlow.Schedule

variable {nodes taken order released before behind ready : List NodeId} {edges : List Edge}
  {s : State} {m a b : NodeId}

section Places

variable {α : Type} [DecidableEq α] {l l' : List α} {x y : α}

/-- In a list that is in order, the places of elements are in order if and only if they are. -/
theorem idxOf_lt_iff_of_pairwise {r : α → α → Prop} (h : l.Pairwise r)
    (hr : ∀ {x y}, r x y → ¬ r y x) (hx : x ∈ l) (hy : y ∈ l) :
    l.idxOf x < l.idxOf y ↔ r x y := by
  have hlt {x y : α} (hx : x ∈ l) (hy : y ∈ l) (hlt : l.idxOf x < l.idxOf y) : r x y := by
    have hpair := List.pairwise_iff_getElem.1 h _ _ (List.idxOf_lt_length_of_mem hx)
      (List.idxOf_lt_length_of_mem hy) hlt
    rwa [List.getElem_idxOf, List.getElem_idxOf] at hpair
  refine ⟨hlt hx hy, fun hxy ↦ ?_⟩
  rcases lt_trichotomy (l.idxOf x) (l.idxOf y) with h | h | h
  · exact h
  · obtain rfl := (List.idxOf_inj hx).1 h
    exact absurd hxy (hr hxy)
  · exact absurd (hlt hy hx h) (hr hxy)

theorem pairwise_idxOf_lt (h : l.Nodup) : l.Pairwise (l.idxOf · < l.idxOf ·) := by
  refine List.pairwise_iff_getElem.2 fun i j hi hj hij ↦ ?_
  rwa [h.idxOf_getElem, h.idxOf_getElem]

/-- A part of a list in its order has its elements in the order of the list. -/
theorem idxOf_lt_iff_of_sublist (h : l.Sublist l') (hnodup : l'.Nodup) (hx : x ∈ l) (hy : y ∈ l) :
    l.idxOf x < l.idxOf y ↔ l'.idxOf x < l'.idxOf y :=
  idxOf_lt_iff_of_pairwise ((pairwise_idxOf_lt hnodup).sublist h) lt_asymm hx hy

end Places

/-- Whether the last record of an edge stands before the last one of another: who reads from the
end finds the other one first. -/
def RecordedBefore (edges : List Edge) (e e' : Edge) : Prop :=
  edges.reverse.idxOf e' < edges.reverse.idxOf e

theorem recordedBefore_cons {e e' : Edge} (head : Edge) (he : e ∈ edges) (he' : e' ∈ edges) :
    RecordedBefore (head :: edges) e e' ↔ RecordedBefore edges e e' := by
  rw [RecordedBefore, List.reverse_cons, List.idxOf_append_of_mem (List.mem_reverse.2 he),
    List.idxOf_append_of_mem (List.mem_reverse.2 he')]
  rfl

theorem recordedBefore_cons_self {e e' : Edge} (he : e ∉ edges) (he' : e' ∈ edges) :
    RecordedBefore (e :: edges) e e' := by
  have hplace := List.idxOf_lt_length_of_mem (List.mem_reverse.2 he')
  rw [RecordedBefore, List.reverse_cons, List.idxOf_append_of_mem (List.mem_reverse.2 he'),
    List.idxOf_append_of_notMem (List.mem_reverse.not.2 he)]
  omega

theorem mem_successors_iff : a ∈ successors edges m ↔ (m, a) ∈ edges := by
  simp only [successors, List.mem_map, List.mem_filter, beq_iff_eq]
  constructor
  · rintro ⟨⟨_, _⟩, ⟨he, rfl⟩, rfl⟩
    exact he
  · exact fun he ↦ ⟨(m, a), ⟨he, rfl⟩, rfl⟩

/-- Without repetition, the successors of a node stand in the order of the last records. -/
theorem pairwise_dedup_successors (edges : List Edge) (m : NodeId) :
    (successors edges m).dedup.Pairwise fun a b ↦ RecordedBefore edges (m, a) (m, b) := by
  induction edges with
  | nil => exact .nil
  | cons head edges ih =>
    have hmem {n : NodeId} (hn : n ∈ (successors edges m).dedup) : (m, n) ∈ edges :=
      mem_successors_iff.1 (List.mem_dedup.1 hn)
    have hrest : (successors edges m).dedup.Pairwise
        fun a b ↦ RecordedBefore (head :: edges) (m, a) (m, b) :=
      ih.imp_of_mem fun ha hb hab ↦ (recordedBefore_cons head (hmem ha) (hmem hb)).2 hab
    by_cases hsource : head.1 = m
    · subst hsource
      have hcons : successors (head :: edges) head.1 = head.2 :: successors edges head.1 := by
        simp [successors]
      rw [hcons]
      by_cases hagain : head.2 ∈ successors edges head.1
      · rwa [List.dedup_cons_of_mem hagain]
      · rw [List.dedup_cons_of_notMem hagain]
        refine List.pairwise_cons.2 ⟨fun n hn ↦ ?_, hrest⟩
        exact recordedBefore_cons_self (fun he ↦ hagain (mem_successors_iff.2 he)) (hmem hn)
    · have hskip : successors (head :: edges) m = successors edges m := by
        simp [successors, hsource]
      rwa [hskip]

/-- The nodes that get ready when edges into nodes are removed, in the order of the last edge into
each. -/
def freed (s : State) (released : List NodeId) : List NodeId :=
  released.dedup.filter fun n ↦ s.degree n = released.count n

theorem ready_foldl_release (hcount : ∀ n, released.count n ≤ s.degree n) :
    (released.foldl State.release s).ready = s.ready ++ freed s released := by
  induction released generalizing s with
  | nil => simp [freed]
  | cons m released ih =>
    have hm := hcount m
    rw [List.count_cons_self] at hm
    -- Only the count of the first node is another one behind its release.
    have hother {n : NodeId} (hn : n ≠ m) : decide ((s.release m).degree n = released.count n) =
        decide (s.degree n = (m :: released).count n) := by
      rw [degree_release_of_ne s hn, List.count_cons_of_ne hn.symm]
    rw [List.foldl_cons, ih (count_le_degree_release hcount)]
    unfold freed
    by_cases hagain : m ∈ released
    · have hpos := List.count_pos_iff.2 hagain
      have hready : (s.release m).ready = s.ready := if_neg (by omega)
      rw [hready, List.dedup_cons_of_mem hagain]
      congr 1
      refine List.filter_congr fun n _ ↦ ?_
      by_cases hn : n = m
      · rw [hn, degree_release_self, List.count_cons_self]
        exact decide_eq_decide.2 (by omega)
      · exact hother hn
    · have hrest : released.dedup.filter (fun n ↦ (s.release m).degree n = released.count n) =
          released.dedup.filter fun n ↦ s.degree n = (m :: released).count n :=
        List.filter_congr fun n hn ↦ hother fun heq ↦ hagain (heq ▸ List.mem_dedup.1 hn)
      have hone : s.degree m = (m :: released).count m ↔ s.degree m - 1 = 0 := by
        rw [List.count_cons_self, List.count_eq_zero_of_not_mem hagain]
        omega
      rw [hrest, List.dedup_cons_of_notMem hagain, List.filter_cons]
      simp only [State.release, hone, decide_eq_true_eq]
      split
      · exact List.append_assoc ..
      · rfl

/-- The ready nodes are the next ones that are taken. -/
theorem Between.ready_isPrefix (h : Between nodes edges taken s) (hinner : ∀ e ∈ edges, e.2 ∈ nodes)
    (fuel : Nat) : s.ready <+: (Schedule.takeReady edges fuel s).1 ++
      (Schedule.takeReady edges fuel s).2.ready := by
  induction fuel generalizing taken s with
  | zero => exact List.prefix_refl _
  | succ fuel ih =>
    unfold Schedule.takeReady
    split
    · next hs => exact hs ▸ List.nil_prefix
    · next m ready hs =>
      have hrest := ih (h.take hs hinner)
      rw [ready_foldl_release (s := { s with ready }) (h.count_successors_le hs)] at hrest
      rw [hs]
      exact List.cons_prefix_cons.2 ⟨rfl, (List.prefix_append _ _).trans hrest⟩

theorem takeReady_succ (hs : s.ready = m :: ready) (fuel : Nat) :
    let rest := takeReady edges fuel ((successors edges m).foldl State.release { s with ready })
    takeReady edges (fuel + 1) s = (m :: rest.1, rest.2) := by
  simp only [takeReady, hs]

theorem Between.exists_turn (h : Between nodes edges taken s) (hinner : ∀ e ∈ edges, e.2 ∈ nodes)
    {fuel : Nat} {last : State}
    (hsplit : Schedule.takeReady edges fuel s = (before ++ m :: behind, last)) :
    ∃ s' ready fuel', Between nodes edges (taken ++ before) s' ∧ s'.ready = m :: ready ∧
      Schedule.takeReady edges fuel' ((successors edges m).foldl State.release { s' with ready }) =
        (behind, last) := by
  induction fuel generalizing taken s before with
  | zero => simp [Schedule.takeReady] at hsplit
  | succ fuel ih =>
    rcases hs : s.ready with _ | ⟨first, ready⟩
    · simp [Schedule.takeReady, hs] at hsplit
    · rw [takeReady_succ hs] at hsplit
      obtain ⟨horder, hlast⟩ := Prod.mk.inj hsplit
      cases before with
      | nil =>
        obtain ⟨rfl, hbehind⟩ := List.cons.inj horder
        exact ⟨s, ready, fuel, by rwa [List.append_nil], hs, Prod.ext hbehind hlast⟩
      | cons other before =>
        obtain ⟨rfl, hrest⟩ := List.cons.inj horder
        rw [List.append_cons]
        exact ih (h.take hs hinner) (Prod.ext hrest hlast)

/-- Whether the taking of a node behind others brings the number of edges that are left into
another one to zero. -/
def Frees (edges : List Edge) (before : List NodeId) (m n : NodeId) : Prop :=
  degreeIn (ahead edges before) n ≠ 0 ∧ degreeIn (ahead edges (before ++ [m])) n = 0

theorem Between.mem_freed_iff (h : Between nodes edges taken s) (hs : s.ready = m :: ready) :
    a ∈ freed { s with ready } (successors edges m) ↔ Frees edges taken m a := by
  have hm : m ∉ taken := (h.mem_ready.1 (hs ▸ List.mem_cons_self)).2.1
  have hdegree := degreeIn_ahead_take hm edges a
  have hmem : a ∈ successors edges m ↔ 0 < (successors edges m).count a :=
    List.count_pos_iff.symm
  rw [freed, List.mem_filter, List.mem_dedup, hmem, decide_eq_true_eq, Frees]
  change _ ∧ s.degree a = _ ↔ _
  rw [h.degree]
  omega

/-- How an order of execution places nodes that get ready together: at the start as in the node
list, and behind a node as its last edges to them are recorded. -/
structure Ties (nodes : List NodeId) (edges : List Edge) (order : List NodeId) : Prop where
  start : ∀ a ∈ nodes, ∀ b ∈ nodes, degreeIn edges a = 0 → degreeIn edges b = 0 →
    (order.idxOf a < order.idxOf b ↔ nodes.idxOf a < nodes.idxOf b)
  behind : ∀ before m behind, order = before ++ m :: behind → ∀ a b, Frees edges before m a →
    Frees edges before m b → (order.idxOf a < order.idxOf b ↔ RecordedBefore edges (m, a) (m, b))

/-- An order of execution is what the loop takes until no node is ready. -/
theorem exists_takeReady_eq (hnodes : nodes.Nodup) (h : Schedule.order nodes edges = .ok order) :
    ∃ fuel last, takeReady (inner nodes edges) fuel (start nodes (inner nodes edges)) =
      (order, last) ∧ last.ready = [] := by
  obtain ⟨hbetween, -, -⟩ := (between_start hnodes (inner nodes edges)).takeReady
    (fun _ ↦ snd_mem_of_mem_inner) nodes.length
  have hperm := perm_of_order hnodes h
  unfold Schedule.order at h
  simp only at h
  split at h
  · cases h
    refine ⟨_, _, rfl, List.eq_nil_iff_forall_not_mem.2 fun n hn ↦ ?_⟩
    obtain ⟨hnode, hnew, -⟩ := hbetween.mem_ready.1 hn
    exact hnew (hperm.mem_iff.2 hnode)
  · cases h

theorem ties_of_order (hnodes : nodes.Nodup) (h : Schedule.order nodes edges = .ok order) :
    Ties nodes (inner nodes edges) order := by
  have hstart := between_start hnodes (inner nodes edges)
  have hinner : ∀ e ∈ inner nodes edges, e.2 ∈ nodes := fun _ ↦ snd_mem_of_mem_inner
  have hnodup := (perm_of_order hnodes h).nodup_iff.2 hnodes
  obtain ⟨fuel, last, htake, hlast⟩ := exists_takeReady_eq hnodes h
  constructor
  case start =>
    intro a ha b hb hzero hzero'
    have hfirst := hstart.ready_isPrefix hinner fuel
    rw [htake, hlast, List.append_nil] at hfirst
    have hready {n : NodeId} (hn : n ∈ nodes) (hzero : degreeIn (inner nodes edges) n = 0) :
        n ∈ (start nodes (inner nodes edges)).ready :=
      List.mem_filter.2 ⟨hn, beq_iff_eq.2 hzero⟩
    rw [← idxOf_lt_iff_of_sublist hfirst.sublist hnodup (hready ha hzero) (hready hb hzero')]
    exact idxOf_lt_iff_of_sublist List.filter_sublist hnodes (hready ha hzero) (hready hb hzero')
  case behind =>
    intro before m behind hsplit a b ha hb
    obtain ⟨s, ready, fuel', hbetween, hs, hrest⟩ := hstart.exists_turn hinner (hsplit ▸ htake)
    have hnext := (hbetween.take hs hinner).ready_isPrefix hinner fuel'
    rw [hrest, ready_foldl_release (s := { s with ready }) (hbetween.count_successors_le hs), hlast,
      List.append_nil] at hnext
    have hbehind : (freed { s with ready } (successors (inner nodes edges) m)).Sublist behind :=
      (List.sublist_append_right ready _).trans hnext.sublist
    have hsub : behind.Sublist order :=
      hsplit ▸ (List.sublist_cons_self m behind).trans (List.sublist_append_right before _)
    have ha := (hbetween.mem_freed_iff hs).2 ha
    have hb := (hbetween.mem_freed_iff hs).2 hb
    rw [← idxOf_lt_iff_of_sublist (hbehind.trans hsub) hnodup ha hb]
    exact idxOf_lt_iff_of_pairwise
      ((pairwise_dedup_successors (inner nodes edges) m).sublist List.filter_sublist) lt_asymm ha hb

/-- Whether nodes that get ready together stand in an order of execution as in the node list. -/
structure KeepsTies (nodes : List NodeId) (edges : List Edge) (order : List NodeId) : Prop where
  start : ∀ a ∈ nodes, ∀ b ∈ nodes, degreeIn edges a = 0 → degreeIn edges b = 0 →
    (order.idxOf a < order.idxOf b ↔ nodes.idxOf a < nodes.idxOf b)
  behind : ∀ before m behind, order = before ++ m :: behind → ∀ a b, Frees edges before m a →
    Frees edges before m b → (order.idxOf a < order.idxOf b ↔ nodes.idxOf a < nodes.idxOf b)

/-- Whether the edges from each node in an order to those that it frees are recorded in the order of
the node list. -/
def RecordedInOrder (nodes : List NodeId) (edges : List Edge) (order : List NodeId) : Prop :=
  ∀ before m behind, order = before ++ m :: behind → ∀ a b, Frees edges before m a →
    Frees edges before m b → (RecordedBefore edges (m, a) (m, b) ↔ nodes.idxOf a < nodes.idxOf b)

theorem Ties.keepsTies_iff (h : Ties nodes edges order) :
    KeepsTies nodes edges order ↔ RecordedInOrder nodes edges order := by
  constructor
  · intro hkeeps before m behind hsplit a b ha hb
    rw [← h.behind before m behind hsplit a b ha hb]
    exact hkeeps.behind before m behind hsplit a b ha hb
  · intro hrecorded
    refine ⟨h.start, fun before m behind hsplit a b ha hb ↦ ?_⟩
    rw [h.behind before m behind hsplit a b ha hb]
    exact hrecorded before m behind hsplit a b ha hb

/-- Nodes without a cycle have an order of execution, in which those that are ready at the start
stand as in the node list, and those that one node frees as its edges to them are recorded. So nodes
that get ready together keep the order of the list exactly if these edges are recorded in it. -/
theorem ties_follow_records (hnodes : nodes.Nodup) (hacyclic : Acyclic (inner nodes edges)) :
    ∃ order, Schedule.order nodes edges = .ok order ∧ Ties nodes (inner nodes edges) order ∧
      (KeepsTies nodes (inner nodes edges) order ↔
        RecordedInOrder nodes (inner nodes edges) order) := by
  obtain ⟨order, horder⟩ := exists_order_of_acyclic hnodes hacyclic
  have hties := ties_of_order hnodes horder
  exact ⟨order, horder, hties, hties.keepsTies_iff⟩

/-- A source that comes last but one in the list, behind a fan that it feeds. -/
def lateSource : List NodeId :=
  [⟨1⟩, ⟨3⟩, ⟨4⟩, ⟨0⟩, ⟨2⟩]

/-- The edges of the fan, and those of the source, of which the one to the fan came last. -/
def lateEdges : List Edge :=
  [(⟨1⟩, ⟨3⟩), (⟨1⟩, ⟨4⟩), (⟨0⟩, ⟨2⟩), (⟨0⟩, ⟨1⟩)]

theorem lateEdges_ties : lateSource.Nodup ∧ Acyclic (inner lateSource lateEdges) ∧
    Schedule.order lateSource lateEdges = .ok [⟨0⟩, ⟨2⟩, ⟨1⟩, ⟨3⟩, ⟨4⟩] ∧
    Ties lateSource (inner lateSource lateEdges) [⟨0⟩, ⟨2⟩, ⟨1⟩, ⟨3⟩, ⟨4⟩] := by
  have hnodes : lateSource.Nodup := by decide
  have horder : Schedule.order lateSource lateEdges = .ok [⟨0⟩, ⟨2⟩, ⟨1⟩, ⟨3⟩, ⟨4⟩] := rfl
  have hacyclic := (exists_order_iff hnodes).1 ⟨_, horder⟩
  obtain ⟨order, heq, hties, -⟩ := ties_follow_records hnodes hacyclic
  obtain rfl := Except.ok.inj (heq.symm.trans horder)
  exact ⟨hnodes, hacyclic, horder, hties⟩

/-- The source frees two nodes, which stand the other way round in the list. -/
theorem lateEdges_turn_round : lateSource.Nodup ∧ Acyclic (inner lateSource lateEdges) ∧
    ∃ order, Schedule.order lateSource lateEdges = .ok order ∧
      ¬ KeepsTies lateSource (inner lateSource lateEdges) order := by
  have hnodes : lateSource.Nodup := by decide
  have horder : Schedule.order lateSource lateEdges = .ok [⟨0⟩, ⟨2⟩, ⟨1⟩, ⟨3⟩, ⟨4⟩] := rfl
  refine ⟨hnodes, (exists_order_iff hnodes).1 ⟨_, horder⟩, _, horder, fun hkeeps ↦ ?_⟩
  have hturned := hkeeps.behind [] ⟨0⟩ _ rfl ⟨1⟩ ⟨2⟩ (by unfold Frees; decide)
    (by unfold Frees; decide)
  exact absurd (hturned.2 (by decide)) (by decide)

end SignalFlow.Schedule
