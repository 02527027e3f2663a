import SignalFlow.Proofs.Partition.Forest

/-!
# Well-formed divisions of nodes

A partition is well formed if its entries are a forest, nodes belong to survivors, and the node
lists say the same as the membership. What it says of nodes, identifiers and queues does not
depend on waiting batches, and ordering edges play no part in the division.
-/

namespace SignalFlow.Partition

variable {β : Type} {p q r : Partition β}

/-- No subgraph was merged and none is fed by another queue: new entries and nodes may have
come. -/
structure Grows (p q : Partition β) : Prop where
  length_le : p.entries.length ≤ q.entries.length
  parent : ∀ i, (q.entry i).parent = (p.entry i).parent
  inbound : ∀ i, (q.entry i).inbound = (p.entry i).inbound
  links : q.links = p.links

/-- Two partitions that divide the nodes alike: they may differ in ordering edges and batches. -/
structure SameDivision (p q : Partition β) : Prop extends Grows p q where
  nodes : ∀ i, (q.entry i).nodes = (p.entry i).nodes
  membership : q.membership = p.membership

/-- An entry for which no batch waits. -/
def Entry.quiet (e : Entry β) : Entry β :=
  { e with pending := [] }

/-- Two partitions of the same topology: they may differ in waiting batches. -/
structure SameTopology (p q : Partition β) : Prop where
  length : q.entries.length = p.entries.length
  entry : ∀ i, (q.entry i).quiet = (p.entry i).quiet
  membership : q.membership = p.membership
  links : q.links = p.links

namespace Grows

protected theorem refl (p : Partition β) : p.Grows p :=
  ⟨le_rfl, fun _ ↦ rfl, fun _ ↦ rfl, rfl⟩

protected theorem trans (hpq : p.Grows q) (hqr : q.Grows r) : p.Grows r where
  length_le := hpq.length_le.trans hqr.length_le
  parent i := (hqr.parent i).trans (hpq.parent i)
  inbound i := (hqr.inbound i).trans (hpq.inbound i)
  links := hqr.links.trans hpq.links

theorem survives_iff (h : p.Grows q) (i : Nat) : q.Survives i ↔ p.Survives i := by
  rw [Survives, Survives, h.parent]

theorem find_eq (h : p.Grows q) (hp : p.Forest) (s : SubgraphId) : q.find s = p.find s :=
  congrArg SubgraphId.mk (hp.root_congr h.length_le h.parent s.index)

theorem inbound_eq (h : p.Grows q) (hp : p.Forest) (s : SubgraphId) :
    q.inbound s = p.inbound s := by
  rw [Partition.inbound, survivor, hp.root_congr h.length_le h.parent, h.inbound]
  rfl

end Grows

theorem SameDivision.of_eq (h : p.SameDivision q) (hp : p.Forest) (node : NodeId) :
    q.of node = p.of node := by
  have hroot : q.root = p.root := funext (hp.root_congr h.length_le h.parent)
  rw [of, h.membership, hroot]
  rfl

theorem SameDivision.modify (p : Partition β) (i : Nat) {change : Entry β → Entry β}
    (hparent : ∀ e, (change e).parent = e.parent) (hnodes : ∀ e, (change e).nodes = e.nodes)
    (hinbound : ∀ e, (change e).inbound = e.inbound) : p.SameDivision (p.modify i change) where
  length_le := (length_modify p i change).ge
  parent j := by rw [entry_modify]; split <;> simp [hparent]
  nodes j := by rw [entry_modify]; split <;> simp [hnodes]
  inbound j := by rw [entry_modify]; split <;> simp [hinbound]
  membership := rfl
  links := rfl

namespace SameTopology

protected theorem refl (p : Partition β) : p.SameTopology p :=
  ⟨rfl, fun _ ↦ rfl, rfl, rfl⟩

protected theorem symm (h : p.SameTopology q) : q.SameTopology p where
  length := h.length.symm
  entry i := (h.entry i).symm
  membership := h.membership.symm
  links := h.links.symm

protected theorem trans (hpq : p.SameTopology q) (hqr : q.SameTopology r) : p.SameTopology r where
  length := hqr.length.trans hpq.length
  entry i := (hqr.entry i).trans (hpq.entry i)
  membership := hqr.membership.trans hpq.membership
  links := hqr.links.trans hpq.links

theorem sameDivision (h : p.SameTopology q) : p.SameDivision q where
  length_le := h.length.ge
  parent i := (congrArg Entry.parent (h.entry i) :)
  nodes i := (congrArg Entry.nodes (h.entry i) :)
  inbound i := (congrArg Entry.inbound (h.entry i) :)
  membership := h.membership
  links := h.links

theorem modify_pending (p : Partition β) (i : Nat) (pending : Entry β → List β) :
    p.SameTopology (p.modify i fun e ↦ { e with pending := pending e }) where
  length := length_modify p i _
  entry j := by rw [entry_modify]; split <;> rfl
  membership := rfl
  links := rfl

theorem send (p : Partition β) (id : SubgraphId) (batch : β) :
    p.SameTopology (p.send id batch) :=
  modify_pending p id.index fun e ↦ e.pending ++ [batch]

theorem receive (p : Partition β) (id : SubgraphId) : p.SameTopology (p.receive id).2 :=
  modify_pending p id.index fun _ ↦ []

theorem forward (p : Partition β) (i : Nat) : p.SameTopology (p.forward i) := by
  unfold Partition.forward
  simp only
  split
  · exact .refl p
  · exact (receive p ⟨i⟩).trans (modify_pending _ _ fun e ↦ e.pending ++ (p.receive ⟨i⟩).1)

theorem forwardAll (p : Partition β) : p.SameTopology p.forwardAll := by
  unfold Partition.forwardAll
  generalize List.range p.entries.length = indices
  induction indices generalizing p with
  | nil => exact .refl p
  | cons i indices ih => exact (forward p i).trans (ih (p.forward i))

end SameTopology

theorem find_of_survives {s : SubgraphId} (h : p.Survives s.index) : p.find s = s := by
  rw [find, root_of_survives h]

theorem inbound_of_survives {s : SubgraphId} (h : p.Survives s.index) :
    p.inbound s = (p.entry s.index).inbound := by
  rw [inbound, survivor, root_of_survives h]

theorem inbound_congr {s t : SubgraphId} (h : p.find s = p.find t) :
    p.inbound s = p.inbound t := by
  have hroot : p.root s.index = p.root t.index := congrArg SubgraphId.index h
  rw [inbound, survivor, hroot]
  rfl

theorem ne_of_of {m n : NodeId} {s : SubgraphId} (hm : p.of m = some s) (hn : p.of n = none) :
    m ≠ n := by
  intro hmn
  rw [hmn, hn] at hm
  cases hm

/-- Nodes belong to survivors, whose node lists say so, each node once. -/
structure WellFormed (p : Partition β) : Prop extends Forest p where
  membership_survives : ∀ {node i}, p.membership node = some i → p.Survives i
  mem_nodes : ∀ {node i}, node ∈ (p.entry i).nodes ↔ p.membership node = some i
  nodup : ∀ i, (p.entry i).nodes.Nodup

theorem wellFormed_empty : (empty : Partition β).WellFormed where
  parent_lt h := absurd h (Nat.not_lt_zero _)
  descends := ⟨fun _ ↦ 0, fun i hi ↦ absurd (survives_of_length_le (Nat.zero_le i)) hi⟩
  membership_survives h := nomatch h
  mem_nodes {node i} := by simp [empty, entry, Entry.root]
  nodup i := by simp [empty, entry, Entry.root]

namespace WellFormed

theorem congr (hp : p.WellFormed) (h : p.SameDivision q) : q.WellFormed where
  toForest := hp.toForest.congr h.length_le h.parent
  membership_survives {node i} hi := by
    rw [h.survives_iff]
    exact hp.membership_survives (h.membership ▸ hi)
  mem_nodes {node i} := by rw [h.nodes, h.membership, hp.mem_nodes]
  nodup i := by rw [h.nodes]; exact hp.nodup i

theorem membership_lt (hp : p.WellFormed) {node : NodeId} {i : Nat}
    (h : p.membership node = some i) : i < p.entries.length := by
  by_contra hi
  have hmem := hp.mem_nodes.2 h
  rw [entry_of_length_le (Nat.not_lt.1 hi)] at hmem
  exact absurd hmem List.not_mem_nil

theorem of_eq_some_iff (hp : p.WellFormed) {node : NodeId} {s : SubgraphId} :
    p.of node = some s ↔ p.membership node = some s.index := by
  rw [of, Option.map_eq_some_iff]
  constructor
  · rintro ⟨i, hi, rfl⟩
    rw [hi, root_of_survives (hp.membership_survives hi)]
  · intro h
    exact ⟨_, h, by rw [root_of_survives (hp.membership_survives h)]⟩

theorem of_eq_none_iff {node : NodeId} : p.of node = none ↔ p.membership node = none := by
  rw [of, Option.map_eq_none_iff]

theorem of_survives (hp : p.WellFormed) {node : NodeId} {s : SubgraphId}
    (h : p.of node = some s) : p.Survives s.index :=
  hp.membership_survives (hp.of_eq_some_iff.1 h)

theorem of_lt (hp : p.WellFormed) {node : NodeId} {s : SubgraphId} (h : p.of node = some s) :
    s.index < p.entries.length :=
  hp.membership_lt (hp.of_eq_some_iff.1 h)

theorem find_of (hp : p.WellFormed) {node : NodeId} {s : SubgraphId} (h : p.of node = some s) :
    p.find s = s :=
  find_of_survives (hp.of_survives h)

/-- The subgraphs that are listed are those of the nodes. -/
theorem mem_roots (hp : p.WellFormed) {s : SubgraphId} :
    s ∈ p.roots ↔ ∃ node, p.of node = some s := by
  obtain ⟨i⟩ := s
  have hnodes : (p.entry i).nodes ≠ [] ↔ ∃ node, p.of node = some ⟨i⟩ := by
    have hmem (node : NodeId) : node ∈ (p.entry i).nodes ↔ p.of node = some ⟨i⟩ :=
      hp.mem_nodes.trans hp.of_eq_some_iff.symm
    simp only [← hmem]
    exact ⟨List.exists_mem_of_ne_nil _, fun ⟨_, h⟩ ↦ List.ne_nil_of_mem h⟩
  rw [← hnodes]
  simp only [roots, List.mem_map, List.mem_filter, List.mem_range, Bool.and_eq_true, beq_iff_eq,
    Bool.not_eq_true', List.isEmpty_eq_false_iff, SubgraphId.mk.injEq, exists_eq_right]
  refine ⟨fun h ↦ h.2.2, fun h ↦ ?_⟩
  obtain ⟨node, hnode⟩ := hnodes.1 h
  exact ⟨hp.of_lt hnode, hp.of_survives hnode, h⟩

theorem nodup_roots (p : Partition β) : p.roots.Nodup :=
  (List.nodup_range.filter _).map fun _ _ h ↦ congrArg SubgraphId.index h

end WellFormed

end SignalFlow.Partition
