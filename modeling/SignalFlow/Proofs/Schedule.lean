import Mathlib.Data.List.Nodup
import Mathlib.Data.List.Perm.Subperm
import SignalFlow.Graph.Schedule

/-!
# The order of execution is an order of the nodes

Between two takings, the count of a node is the number of edges into it that come from nodes
which are not taken, and the ready nodes are those that are not taken and have count zero. So a
node gets ready once, and it is not taken again. All nodes with edges into it have been taken
before, so that the edges point forward.
-/

namespace SignalFlow.Schedule

variable {nodes taken order : List NodeId} {edges : List Edge} {s : State} {m n : NodeId}

section Release

theorem degree_release_self (s : State) (m : NodeId) :
    (s.release m).degree m = s.degree m - 1 :=
  if_pos rfl

theorem degree_release_of_ne (s : State) (h : n ≠ m) : (s.release m).degree n = s.degree n :=
  if_neg h

theorem mem_ready_release (hm : 0 < s.degree m) :
    n ∈ (s.release m).ready ↔ n ∈ s.ready ∨ n = m ∧ s.degree m = 1 := by
  have hone : s.degree m - 1 = 0 ↔ s.degree m = 1 := by omega
  simp only [State.release, hone]
  split
  · next h => simp [h]
  · next h => simp [h]

variable {released : List NodeId}

theorem degree_foldl_release (released : List NodeId) (s : State) (n : NodeId) :
    (released.foldl State.release s).degree n = s.degree n - released.count n := by
  induction released generalizing s with
  | nil => rfl
  | cons m released ih =>
    rw [List.foldl_cons, ih]
    by_cases h : n = m
    · rw [h, degree_release_self, List.count_cons_self]
      omega
    · rw [degree_release_of_ne s h, List.count_cons_of_ne (Ne.symm h)]

theorem count_le_degree_release (hcount : ∀ n, (m :: released).count n ≤ s.degree n) (n : NodeId) :
    released.count n ≤ (s.release m).degree n := by
  have hn := hcount n
  by_cases h : n = m
  · rw [h, List.count_cons_self] at hn
    rw [h, degree_release_self]
    omega
  · rwa [List.count_cons_of_ne (Ne.symm h), ← degree_release_of_ne s h] at hn

/-- A node gets ready when its last edge is removed. -/
theorem mem_ready_foldl_release (hcount : ∀ n, released.count n ≤ s.degree n) :
    n ∈ (released.foldl State.release s).ready ↔
      n ∈ s.ready ∨ n ∈ released ∧ s.degree n = released.count n := by
  induction released generalizing s with
  | nil => simp
  | cons m released ih =>
    have hm := hcount m
    rw [List.count_cons_self] at hm
    rw [List.foldl_cons, ih (count_le_degree_release hcount), mem_ready_release (by omega),
      List.mem_cons, or_assoc]
    refine or_congr_right ?_
    by_cases h : n = m
    · subst h
      rw [degree_release_self, List.count_cons_self]
      by_cases hmem : n ∈ released
      · simp only [hmem, true_and, or_true]
        have hpos := List.count_pos_iff.2 hmem
        omega
      · simp [hmem, List.count_eq_zero_of_not_mem hmem]
    · rw [degree_release_of_ne s h, List.count_cons_of_ne (Ne.symm h)]
      simp [h]

theorem nodup_ready_foldl_release (hcount : ∀ n, released.count n ≤ s.degree n)
    (hready : ∀ n ∈ s.ready, s.degree n = 0) (hnodup : s.ready.Nodup) :
    (released.foldl State.release s).ready.Nodup := by
  induction released generalizing s with
  | nil => exact hnodup
  | cons m released ih =>
    have hm := hcount m
    rw [List.count_cons_self] at hm
    have hnew : m ∉ s.ready := by
      intro h
      have hzero := hready m h
      omega
    refine ih (count_le_degree_release hcount) ?_ ?_
    · intro n hn
      rw [mem_ready_release (by omega)] at hn
      rcases hn with hn | ⟨rfl, hone⟩
      · have hne : n ≠ m := fun h ↦ hnew (h ▸ hn)
        rw [degree_release_of_ne s hne, hready n hn]
      · rw [degree_release_self, hone]
    · unfold State.release
      simp only
      split
      · rw [← List.concat_eq_append]
        exact List.Nodup.concat hnew hnodup
      · exact hnodup

end Release

/-! ## Taking nodes -/

/-- The edges that do not come from a taken node. -/
def ahead (edges : List Edge) (taken : List NodeId) : List Edge :=
  edges.filter (·.1 ∉ taken)

/-- What holds between two takings. -/
structure Between (nodes : List NodeId) (edges : List Edge) (taken : List NodeId) (s : State) :
    Prop where
  degree : ∀ n, s.degree n = degreeIn (ahead edges taken) n
  mem_ready : ∀ {n}, n ∈ s.ready ↔ n ∈ nodes ∧ n ∉ taken ∧ s.degree n = 0
  nodup_ready : s.ready.Nodup
  released : ∀ n ∈ taken, s.degree n = 0

theorem between_start (hnodes : nodes.Nodup) (edges : List Edge) :
    Between nodes edges [] (start nodes edges) where
  degree n := by simp [start, ahead]
  mem_ready := by simp [start]
  nodup_ready := hnodes.filter _
  released _ h := absurd h List.not_mem_nil

theorem degreeIn_ahead (edges : List Edge) (taken : List NodeId) (n : NodeId) :
    degreeIn (ahead edges taken) n = edges.countP fun e ↦ e.2 == n && decide (e.1 ∉ taken) :=
  List.countP_filter

theorem count_successors (edges : List Edge) (m n : NodeId) :
    (successors edges m).count n = edges.countP fun e ↦ e.2 == n && e.1 == m := by
  rw [List.count, successors, List.countP_map, List.countP_filter]
  rfl

/-- The edges that are not ahead any more lead to the successors of the taken node. -/
theorem degreeIn_ahead_take (hm : m ∉ taken) (edges : List Edge) (n : NodeId) :
    degreeIn (ahead edges taken) n =
      degreeIn (ahead edges (taken ++ [m])) n + (successors edges m).count n := by
  rw [degreeIn_ahead, degreeIn_ahead, count_successors]
  induction edges with
  | nil => rfl
  | cons e edges ih =>
    rw [List.countP_cons, List.countP_cons, List.countP_cons, ih]
    by_cases hem : e.1 = m
    · simp [hem, hm]
      omega
    · simp [hem]
      omega

theorem Between.count_successors_le {ready : List NodeId} (h : Between nodes edges taken s)
    (hs : s.ready = m :: ready) (n : NodeId) : (successors edges m).count n ≤ s.degree n := by
  have hm := (h.mem_ready.1 (hs ▸ List.mem_cons_self)).2.1
  rw [h.degree, degreeIn_ahead_take hm edges n]
  exact Nat.le_add_left ..

theorem Between.take {ready : List NodeId} (h : Between nodes edges taken s)
    (hs : s.ready = m :: ready) (hinner : ∀ e ∈ edges, e.2 ∈ nodes) :
    Between nodes edges (taken ++ [m])
      ((successors edges m).foldl State.release { s with ready }) := by
  obtain ⟨-, hm, hzero⟩ := h.mem_ready.1 (hs ▸ List.mem_cons_self)
  have hdegree (n : NodeId) := (h.degree n).trans (degreeIn_ahead_take hm edges n)
  have hcount := h.count_successors_le hs
  have hnodup := h.nodup_ready
  rw [hs, List.nodup_cons] at hnodup
  have hrest {n : NodeId} : n ∈ ready ↔ n ∈ s.ready ∧ n ≠ m := by
    rw [hs, List.mem_cons]
    refine ⟨fun hn ↦ ⟨.inr hn, fun heq ↦ hnodup.1 (heq ▸ hn)⟩, fun hn ↦ hn.1.resolve_left hn.2⟩
  constructor
  case degree =>
    intro n
    rw [degree_foldl_release]
    change s.degree n - _ = _
    rw [hdegree]
    omega
  case mem_ready =>
    intro n
    rw [mem_ready_foldl_release (s := { s with ready }) hcount, degree_foldl_release]
    change n ∈ ready ∨ n ∈ successors edges m ∧ s.degree n = _ ↔ _ ∧ _ ∧ s.degree n - _ = 0
    rw [hrest, h.mem_ready, List.mem_append, List.mem_singleton, not_or]
    by_cases hmem : n ∈ successors edges m
    · have hpositive : s.degree n ≠ 0 :=
        Nat.ne_zero_of_lt (Nat.lt_of_lt_of_le (List.count_pos_iff.2 hmem) (hcount n))
      have hnode : n ∈ nodes := by
        obtain ⟨e, he, rfl⟩ := List.mem_map.1 hmem
        exact hinner e (List.mem_of_mem_filter he)
      have hnew : n ∉ taken := fun htaken ↦ hpositive (h.released n htaken)
      have hne : n ≠ m := fun heq ↦ hpositive (heq ▸ hzero)
      have hle := hcount n
      simp only [hmem, hnode, hnew, hne, hpositive, not_false_eq_true, true_and, and_false,
        false_and, false_or]
      omega
    · rw [List.count_eq_zero_of_not_mem hmem, Nat.sub_zero]
      tauto
  case nodup_ready =>
    refine nodup_ready_foldl_release hcount ?_ hnodup.2
    intro n hn
    exact (h.mem_ready.1 (hrest.1 hn).1).2.2
  case released =>
    intro n hn
    rw [degree_foldl_release]
    rw [List.mem_append, List.mem_singleton] at hn
    rcases hn with hn | rfl
    · change s.degree n - _ = 0
      rw [h.released n hn, Nat.zero_sub]
    · change s.degree n - _ = 0
      rw [hzero, Nat.zero_sub]

/-- The nodes taken in a row are different nodes that were not taken before. -/
theorem Between.takeReady (h : Between nodes edges taken s) (hinner : ∀ e ∈ edges, e.2 ∈ nodes)
    (fuel : Nat) : Between nodes edges (taken ++ (takeReady edges fuel s).1)
        (takeReady edges fuel s).2 ∧
      (takeReady edges fuel s).1.Nodup ∧
      ∀ n ∈ (takeReady edges fuel s).1, n ∈ nodes ∧ n ∉ taken := by
  induction fuel generalizing taken s with
  | zero => simpa [Schedule.takeReady] using h
  | succ fuel ih =>
    unfold Schedule.takeReady
    split
    · simpa using h
    · next m ready hs =>
      obtain ⟨hbetween, hnodup, hmem⟩ := ih (h.take hs hinner)
      obtain ⟨hnode, hnew, -⟩ := h.mem_ready.1 (hs ▸ List.mem_cons_self)
      simp only
      rw [List.append_cons]
      refine ⟨hbetween, List.nodup_cons.2 ⟨fun hm ↦ ?_, hnodup⟩, fun n hn ↦ ?_⟩
      · exact (hmem m hm).2 (List.mem_append_right _ (List.mem_singleton_self m))
      · rcases List.mem_cons.1 hn with rfl | hn
        · exact ⟨hnode, hnew⟩
        · exact ⟨(hmem n hn).1, fun htaken ↦ (hmem n hn).2 (List.mem_append_left _ htaken)⟩

/-- Whether no edge leads from a node of a list to an earlier one. -/
def Forward (edges : List Edge) (nodes : List NodeId) : Prop :=
  nodes.Pairwise fun first later ↦ (later, first) ∉ edges

instance (edges : List Edge) (nodes : List NodeId) : Decidable (Forward edges nodes) :=
  inferInstanceAs (Decidable (nodes.Pairwise fun first later ↦ (later, first) ∉ edges))

/-- A node is taken when all nodes with edges into it have been. -/
theorem Between.mem_taken {e : Edge} (h : Between nodes edges taken s) (he : e ∈ edges)
    (hready : e.2 ∈ s.ready) : e.1 ∈ taken := by
  by_contra hnew
  have hzero := (h.mem_ready.1 hready).2.2
  rw [h.degree, degreeIn, List.countP_eq_zero] at hzero
  have hahead : e ∈ ahead edges taken := List.mem_filter.2 ⟨he, decide_eq_true hnew⟩
  exact hzero e hahead (beq_self_eq_true _)

theorem Between.forward_takeReady (h : Between nodes edges taken s)
    (hinner : ∀ e ∈ edges, e.2 ∈ nodes) (fuel : Nat) :
    Forward edges (Schedule.takeReady edges fuel s).1 := by
  induction fuel generalizing taken s with
  | zero => exact .nil
  | succ fuel ih =>
    unfold Schedule.takeReady
    split
    · exact .nil
    · next m ready hs =>
      have htake := h.take hs hinner
      refine List.pairwise_cons.2 ⟨fun n hn hedge ↦ ?_, ih htake⟩
      have htaken : n ∈ taken := h.mem_taken hedge (hs ▸ List.mem_cons_self)
      exact ((htake.takeReady hinner fuel).2.2 n hn).2 (List.mem_append_left _ htaken)

theorem snd_mem_of_mem_inner {e : Edge} (he : e ∈ inner nodes edges) : e.2 ∈ nodes := by
  have hends := List.of_mem_filter he
  simp only [Bool.and_eq_true, decide_eq_true_eq] at hends
  exact hends.2

/-- An order of execution has each node once. -/
theorem perm_of_order (hnodes : nodes.Nodup) (h : Schedule.order nodes edges = .ok order) :
    order.Perm nodes := by
  obtain ⟨-, hnodup, hmem⟩ := (between_start hnodes (inner nodes edges)).takeReady
    (fun _ ↦ snd_mem_of_mem_inner) nodes.length
  unfold Schedule.order at h
  simp only at h
  split at h
  · next hlength =>
    cases h
    have hsubperm := List.Nodup.subperm hnodup fun n hn ↦ (hmem n hn).1
    exact hsubperm.perm_of_length_le (Nat.le_of_eq hlength.symm)
  · cases h

/-- All edges point forward in an order of execution. -/
theorem forward_of_order (hnodes : nodes.Nodup) (h : Schedule.order nodes edges = .ok order) :
    Forward edges order := by
  have hmem {n : NodeId} : n ∈ order → n ∈ nodes := (perm_of_order hnodes h).mem_iff.1
  have hforward : Forward (inner nodes edges) order := by
    unfold Schedule.order at h
    simp only at h
    split at h
    · cases h
      exact (between_start hnodes (inner nodes edges)).forward_takeReady
        (fun _ ↦ snd_mem_of_mem_inner) nodes.length
    · cases h
  refine hforward.imp_of_mem fun {first later} hfirst hlater hback hedge ↦ hback ?_
  refine List.mem_filter.2 ⟨hedge, ?_⟩
  rw [Bool.and_eq_true, decide_eq_true_eq, decide_eq_true_eq]
  exact ⟨hmem hlater, hmem hfirst⟩

section Carry

variable {S : Type} {step : S → NodeId → S} {P Q : NodeId → S → Prop} {state : S}
  {before behind first second : List NodeId}

/-- What holds of a node before its step holds until the step. -/
theorem forall_step (hkeep : ∀ {s m n}, m ≠ n → P m s → P m (step s n)) (hm : m ∉ nodes)
    (h : ∀ n ∈ nodes, P n state) : ∀ n ∈ nodes, P n (step state m) :=
  fun n hn ↦ hkeep (fun heq ↦ hm (heq ▸ hn)) (h n hn)

/-- What the step of a node makes true of it is true of all nodes in the end. -/
theorem forall_foldl_step (hkeep : ∀ {s m n}, m ≠ n → P m s → P m (step s n))
    (hkeep' : ∀ {s m n}, m ≠ n → Q m s → Q m (step s n)) (hmake : ∀ {s n}, P n s → Q n (step s n))
    (hnodup : nodes.Nodup) (h : ∀ n ∈ nodes, P n state) :
    ∀ n ∈ nodes, Q n (nodes.foldl step state) := by
  have hlast {n : NodeId} (rest : List NodeId) (hn : n ∉ rest) {s : S} (hs : Q n s) :
      Q n (rest.foldl step s) := by
    induction rest generalizing s with
    | nil => exact hs
    | cons m rest ih =>
      rw [List.mem_cons, not_or] at hn
      exact ih hn.2 (hkeep' hn.1 hs)
  induction nodes generalizing state with
  | nil => nofun
  | cons m rest ih =>
    obtain ⟨hm, hnodup⟩ := List.nodup_cons.1 hnodup
    obtain ⟨hfirst, hrest⟩ := List.forall_mem_cons.1 h
    refine List.forall_mem_cons.2 ⟨hlast rest hm (hmake hfirst), ?_⟩
    exact ih hnodup (forall_step hkeep hm hrest)

variable (hkeep : ∀ {s m n}, m ≠ n → P m s → P m (step s n))
  (hcomm : ∀ {s m n}, m ≠ n → (m, n) ∉ edges → (n, m) ∉ edges → P m s → P n s →
    step (step s m) n = step (step s n) m)

include hkeep hcomm

/-- A node that has no edges from or to those before it may come first. -/
theorem foldl_step_of_free (hnodup : (before ++ m :: behind).Nodup)
    (hfree : ∀ n ∈ before, (m, n) ∉ edges ∧ (n, m) ∉ edges) (hm : P m state)
    (hbefore : ∀ n ∈ before, P n state) :
    (before ++ m :: behind).foldl step state = (m :: (before ++ behind)).foldl step state := by
  induction before generalizing state with
  | nil => rfl
  | cons n before ih =>
    obtain ⟨hn, hnodup⟩ := List.nodup_cons.1 hnodup
    obtain ⟨hfirst, hrest⟩ := List.forall_mem_cons.1 hbefore
    have hne : m ≠ n := fun heq ↦ hn (heq ▸ List.mem_append_right _ List.mem_cons_self)
    have hnew : n ∉ before := fun hmem ↦ hn (List.mem_append_left _ hmem)
    obtain ⟨hmn, hnm⟩ := hfree n List.mem_cons_self
    calc ((n :: before) ++ m :: behind).foldl step state
      _ = (m :: (before ++ behind)).foldl step (step state n) :=
        ih hnodup (fun k hk ↦ hfree k (List.mem_cons_of_mem _ hk)) (hkeep hne hm)
          (forall_step hkeep hnew hrest)
      _ = (before ++ behind).foldl step (step (step state m) n) := by
        rw [List.foldl_cons, hcomm hne hmn hnm hm hfirst]

/-- If steps of nodes without edges between them commute, all orders in which the edges point
forward come to the same. -/
theorem foldl_step_of_forward (hperm : first.Perm second) (hnodup : first.Nodup)
    (hfirst : Forward edges first) (hsecond : Forward edges second)
    (h : ∀ n ∈ first, P n state) : first.foldl step state = second.foldl step state := by
  induction first generalizing second state with
  | nil => rw [hperm.nil_eq]
  | cons m rest ih =>
    obtain ⟨hm, hnodup'⟩ := List.nodup_cons.1 hnodup
    obtain ⟨hpm, hprest⟩ := List.forall_mem_cons.1 h
    obtain ⟨hfree, hrest⟩ := List.pairwise_cons.1 hfirst
    obtain ⟨before, behind, rfl⟩ := List.append_of_mem (hperm.mem_iff.1 List.mem_cons_self)
    have hrestPerm : rest.Perm (before ++ behind) :=
      (hperm.trans List.perm_middle).cons_inv
    have hmem {n : NodeId} (hn : n ∈ before) : n ∈ rest :=
      hrestPerm.mem_iff.2 (List.mem_append_left _ hn)
    have hsecond' : Forward edges (before ++ behind) :=
      hsecond.sublist ((List.sublist_cons_self m behind).append_left before)
    calc (m :: rest).foldl step state
      _ = (before ++ behind).foldl step (step state m) :=
        ih hrestPerm hnodup' hrest hsecond' (forall_step hkeep hm hprest)
      _ = (before ++ m :: behind).foldl step state := by
        refine (foldl_step_of_free hkeep hcomm (hperm.nodup_iff.1 hnodup) (fun n hn ↦ ?_) hpm
          fun n hn ↦ hprest n (hmem hn)).symm
        refine ⟨?_, hfree n (hmem hn)⟩
        exact (List.pairwise_append.1 hsecond).2.2 n hn m List.mem_cons_self

end Carry

end SignalFlow.Schedule
