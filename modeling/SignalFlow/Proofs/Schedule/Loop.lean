import SignalFlow.Proofs.Schedule.Remaining

/-!
# The loop that takes nodes

The loop goes on as long as a node is ready. An edge is taken off a count only where one is left,
so that no count gets below zero, and a turn takes a node that was not taken before. So the loop
ends after as many turns as there are nodes at most, and the bound on the turns of `order` is never
what ends it.
-/

namespace SignalFlow.Schedule

variable {nodes taken order released : List NodeId} {edges : List Edge} {s : State} {m : NodeId}

/-- Removes an edge into a node, if one is left. -/
def State.release? (s : State) (node : NodeId) : Option State :=
  if s.degree node = 0 then none else some (s.release node)

/-- The loop from a state to its end: the nodes that it takes, and the state that it leaves. It goes
on only if each edge that it removes is one that is left. -/
inductive Loop (edges : List Edge) : State → List NodeId → State → Prop where
  | done {s : State} (hs : s.ready = []) : Loop edges s [] s
  | turn {s next last : State} {node : NodeId} {ready order : List NodeId}
      (hs : s.ready = node :: ready)
      (hnext : (successors edges node).foldlM State.release? { s with ready } = some next)
      (hrest : Loop edges next order last) : Loop edges s (node :: order) last

/-- Edges that are counted can be removed one after the other. -/
theorem foldlM_release? (hcount : ∀ n, released.count n ≤ s.degree n) :
    released.foldlM State.release? s = some (released.foldl State.release s) := by
  induction released generalizing s with
  | nil => rfl
  | cons m released ih =>
    have hm := hcount m
    rw [List.count_cons_self] at hm
    have hrelease : s.release? m = some (s.release m) := if_neg (by omega)
    rw [List.foldlM_cons, hrelease, List.foldl_cons]
    exact ih (count_le_degree_release hcount)

/-- The nodes that are not taken. -/
def left (nodes taken : List NodeId) : List NodeId :=
  nodes.filter (· ∉ taken)

theorem mem_left_iff : m ∈ left nodes taken ↔ m ∈ nodes ∧ m ∉ taken := by
  simp [left]

theorem Between.mem_left (h : Between nodes edges taken s) (hm : m ∈ s.ready) :
    m ∈ left nodes taken :=
  mem_left_iff.2 ((h.mem_ready.1 hm).imp id And.left)

theorem length_left_take_lt (hm : m ∈ left nodes taken) :
    (left nodes (taken ++ [m])).length < (left nodes taken).length := by
  have hfewer : left nodes (taken ++ [m]) = (left nodes taken).filter (· ≠ m) := by
    simp only [left, List.filter_filter]
    refine List.filter_congr fun n _ ↦ ?_
    simp [and_comm]
  rw [hfewer]
  exact List.length_filter_lt_length_iff_exists.2 ⟨m, hm, by simp⟩

/-- The loop ends, and taking nodes with a bound that is not below their number comes to the
same. -/
theorem Between.loop (h : Between nodes edges taken s) (hinner : ∀ e ∈ edges, e.2 ∈ nodes)
    {fuel : Nat} (hfuel : (left nodes taken).length ≤ fuel) :
    Loop edges s (Schedule.takeReady edges fuel s).1 (Schedule.takeReady edges fuel s).2 := by
  induction fuel generalizing taken s with
  | zero =>
    have hnone : left nodes taken = [] := List.length_eq_zero_iff.1 (Nat.le_zero.1 hfuel)
    exact .done (List.eq_nil_iff_forall_not_mem.2 fun n hn ↦ by simpa [hnone] using h.mem_left hn)
  | succ fuel ih =>
    unfold Schedule.takeReady
    split
    · next hs => exact .done hs
    · next m ready hs =>
      have hfewer := length_left_take_lt (h.mem_left (hs ▸ List.mem_cons_self))
      exact .turn hs (foldlM_release? (h.count_successors_le hs))
        (ih (h.take hs hinner) (by omega))

/-- A list of all nodes, each once, in which every edge between them points forward. -/
structure Sorts (nodes : List NodeId) (edges : List Edge) (order : List NodeId) : Prop where
  perm : order.Perm nodes
  ahead : ∀ e ∈ edges, e.1 ∈ nodes → e.2 ∈ nodes → order.idxOf e.1 < order.idxOf e.2

theorem sorts_of_order (hnodes : nodes.Nodup) (h : Schedule.order nodes edges = .ok order) :
    Sorts nodes edges order where
  perm := perm_of_order hnodes h
  ahead _ he hsource htarget := idxOf_lt_of_order hnodes h (mem_inner_iff.2 ⟨he, hsource, htarget⟩)

/-- The loop ends without a count below zero. If it has taken all nodes they are the order, and this
is so exactly if the edges between the nodes have no cycle. -/
theorem order_is_topological (hnodes : nodes.Nodup) (edges : List Edge) :
    (∃ taken last, Loop (inner nodes edges) (start nodes (inner nodes edges)) taken last ∧
      Schedule.order nodes edges = if taken.length = nodes.length then .ok taken
        else .error (nodes.filter (last.degree · != 0))) ∧
    ((∃ order, Schedule.order nodes edges = .ok order) ↔ Acyclic (inner nodes edges)) ∧
    ∀ order, Schedule.order nodes edges = .ok order → Sorts nodes edges order := by
  have hloop := (between_start hnodes (inner nodes edges)).loop (fun _ ↦ snd_mem_of_mem_inner)
    (List.length_filter_le _ nodes)
  exact ⟨⟨_, _, hloop, rfl⟩, exists_order_iff hnodes, fun _ ↦ sorts_of_order hnodes⟩

/-- Three nodes, the last of which comes first in the list. -/
def threeNodes : List NodeId :=
  [⟨2⟩, ⟨0⟩, ⟨1⟩]

/-- Edges between them, of which one is there twice, and one from another node. -/
def doubledEdges : List Edge :=
  [(⟨0⟩, ⟨1⟩), (⟨1⟩, ⟨2⟩), (⟨0⟩, ⟨1⟩), (⟨7⟩, ⟨0⟩)]

theorem doubledEdges_topological : threeNodes.Nodup ∧
    (∃ taken last, Loop (inner threeNodes doubledEdges)
      (start threeNodes (inner threeNodes doubledEdges)) taken last) ∧
    Acyclic (inner threeNodes doubledEdges) ∧
    Schedule.order threeNodes doubledEdges = .ok [⟨0⟩, ⟨1⟩, ⟨2⟩] ∧
    Sorts threeNodes doubledEdges [⟨0⟩, ⟨1⟩, ⟨2⟩] := by
  have hnodes : threeNodes.Nodup := by decide
  have horder : Schedule.order threeNodes doubledEdges = .ok [⟨0⟩, ⟨1⟩, ⟨2⟩] := rfl
  obtain ⟨⟨taken, last, hloop, -⟩, hacyclic, hsorts⟩ := order_is_topological hnodes doubledEdges
  exact ⟨hnodes, ⟨taken, last, hloop⟩, hacyclic.1 ⟨_, horder⟩, horder, hsorts _ horder⟩

end SignalFlow.Schedule
