import SignalFlow.Graph.Binding
import SignalFlow.Proofs.Partition.Load

/-!
# Deliveries that wait

What is posted for a node waits for an entry whose survivor is the subgraph of the node. Who posts
with the routes of the moment finds the survivor itself, so that its deliveries wait where the
node is; old routes may lead to an entry that was merged since. When a subgraph is merged into
another one its deliveries go behind those of the survivor. Since those are for other nodes, what
waits for a single node keeps its order. A start forwards what waits for merged entries, from the
first entry to the last.
-/

namespace SignalFlow.Partition

section Follows

variable {β : Type} {p q r : Partition β} {s : SubgraphId} {node : NodeId}

/-- Nodes in the subgraph that an entry became part of are in the one that it is part of later. -/
def Follows (p q : Partition β) : Prop :=
  ∀ ⦃node s⦄, p.of node = some (p.find s) → q.of node = some (q.find s)

theorem Follows.trans (hpq : p.Follows q) (hqr : q.Follows r) : p.Follows r :=
  fun _ _ hnode ↦ hqr (hpq hnode)

theorem exists_membership_of_of (h : p.of node = some s) :
    ∃ i, p.membership node = some i ∧ p.root i = s.index := by
  obtain ⟨i, hi, heq⟩ := Option.map_eq_some_iff.1 h
  exact ⟨i, hi, congrArg SubgraphId.index heq⟩

/-- Pointers of entries and the membership of nodes are all that counts. -/
theorem Forest.follows (hp : p.Forest) (hlength : p.entries.length ≤ q.entries.length)
    (hparent : ∀ i, (q.entry i).parent = (p.entry i).parent)
    (hmembership : ∀ {node i}, p.membership node = some i → q.membership node = some i) :
    p.Follows q := by
  intro node s hnode
  obtain ⟨i, hi, hroot⟩ := exists_membership_of_of hnode
  calc
    q.of node = some ⟨q.root i⟩ := by rw [of, hmembership hi, Option.map_some]
    _ = some (p.find s) := by rw [hp.root_congr hlength hparent, hroot]
    _ = some (q.find s) := by rw [find, find, hp.root_congr hlength hparent]

theorem SameTopology.follows (h : p.SameTopology q) (hp : p.Forest) : p.Follows q :=
  hp.follows h.length.ge h.sameDivision.parent fun hi ↦ by rw [h.membership, hi]

theorem WellFormed.follows_merge (hp : p.WellFormed) {winner loser : Nat}
    (hwinner : winner < p.entries.length) (hloser : loser < p.entries.length)
    (hne : winner ≠ loser) (hwinner' : p.Survives winner) (hloser' : p.Survives loser) :
    p.Follows (p.merge winner loser) := by
  intro node s hnode
  have hq := hp.merge hwinner hloser hne hwinner' hloser'
  rw [hq.of_eq_some_iff, hp.membership_merge, hp.of_eq_some_iff.1 hnode,
    find_merge hwinner hloser hne hp.toForest hwinner' hloser', mergedName]
  simp only [Option.some.injEq]
  split
  · rfl
  · rfl

end Follows

variable {p q r : Partition Batch} {a b node : NodeId} {s t into : SubgraphId} {i : Nat}

/-- The deliveries that wait for an entry, in the order in which they will be made. -/
def waiting (p : Partition Batch) (i : Nat) : List Delivery :=
  (p.entry i).pending.flatten

/-- Deliveries wait for the entries of their nodes. -/
def Routed (p : Partition Batch) : Prop :=
  ∀ i, ∀ d ∈ p.waiting i, p.membership d.binding.node = some i

/-- Deliveries wait for entries that are part of the subgraphs of their nodes. -/
def Addressed (p : Partition Batch) : Prop :=
  ∀ i, ∀ d ∈ p.waiting i, p.of d.binding.node = some (p.find ⟨i⟩)

/-- What waits for a node. -/
def backlog (p : Partition Batch) (node : NodeId) : List Delivery :=
  match p.membership node with
  | none => []
  | some i => (p.waiting i).filter (·.binding.node = node)

/-- What waits for the first entries that were merged into an entry. -/
def stranded (p : Partition Batch) (n i : Nat) : List Delivery :=
  (List.range n).flatMap fun j ↦ if p.root j = i ∧ j ≠ i then p.waiting j else []

theorem routed_empty : (empty : Partition Batch).Routed := by
  intro i d hd
  simp [waiting, empty, entry, Entry.root] at hd

theorem Routed.addressed (h : p.Routed) : p.Addressed := by
  intro i d hd
  rw [of, h i d hd]
  rfl

/-- Deliveries that wait for no merged entry are where their nodes are. -/
theorem Addressed.routed (h : p.Addressed) (hp : p.WellFormed)
    (hmerged : ∀ i, ¬ p.Survives i → p.waiting i = []) : p.Routed := by
  intro i d hd
  have hi : p.Survives i := by
    by_contra hi
    rw [hmerged i hi] at hd
    cases hd
  have hof := h i d hd
  rwa [find_of_survives hi, hp.of_eq_some_iff] at hof

theorem Routed.waiting_merged (h : p.Routed) (hp : p.WellFormed) (hi : ¬ p.Survives i) :
    p.waiting i = [] := by
  apply List.eq_nil_iff_forall_not_mem.2
  intro d hd
  exact hi (hp.membership_survives (h i d hd))

/-- Nothing for a node waits for an entry of another subgraph. -/
theorem Addressed.filter_waiting_eq_nil (h : p.Addressed) (hnode : p.of node ≠ some (p.find ⟨i⟩)) :
    (p.waiting i).filter (·.binding.node = node) = [] := by
  rw [List.filter_eq_nil_iff]
  intro d hd heq
  apply hnode
  rw [← of_decide_eq_true heq]
  exact h i d hd

theorem Poured.waiting {source target : Nat} (h : Poured source target p q) (i : Nat) :
    q.waiting i = if i = source then [] else
      if i = target then p.waiting target ++ p.waiting source else p.waiting i := by
  unfold Partition.waiting
  rw [h.pending]
  split
  · rfl
  · split
    · exact List.flatten_append
    · rfl

/-- What waits for the subgraph of a node also if other entries were merged into it. -/
theorem Addressed.poured (h : p.Addressed) (hfollows : p.Follows q) {source target : Nat}
    (hpoured : Poured source target p q) (hfind : q.find ⟨source⟩ = q.find ⟨target⟩) :
    q.Addressed := by
  intro i d hd
  rw [hpoured.waiting] at hd
  split at hd
  · cases hd
  · split at hd
    · next hi =>
      subst hi
      rcases List.mem_append.1 hd with hd | hd
      · exact hfollows (h _ d hd)
      · rw [← hfind]
        exact hfollows (h _ d hd)
    · exact hfollows (h i d hd)

/-! ## Changes of the topology -/

/-- A partition behind a change of the topology. The same waits for every node, and what waits for
merged entries stays with them. -/
structure Shifts (p q : Partition Batch) : Prop where
  follows : p.Follows q
  addressed : q.Addressed
  backlog : ∀ node, q.backlog node = p.backlog node
  /-- A subgraph that was just merged into another one has nothing left. -/
  emptied : ∀ i, p.Survives i → ¬ q.Survives i → q.waiting i = []
  stays : ∀ i, ¬ p.Survives i → ¬ q.Survives i ∧ q.waiting i = p.waiting i
  load : q.load = p.load
  length_le : p.entries.length ≤ q.entries.length

namespace Shifts

protected theorem trans (hpq : p.Shifts q) (hqr : q.Shifts r) : p.Shifts r where
  follows := hpq.follows.trans hqr.follows
  addressed := hqr.addressed
  backlog node := (hqr.backlog node).trans (hpq.backlog node)
  emptied i hp hr := by
    by_cases hq : q.Survives i
    · exact hqr.emptied i hq hr
    · rw [(hqr.stays i hq).2, hpq.emptied i hp hq]
  stays i hi := by
    obtain ⟨hq, hwaiting⟩ := hpq.stays i hi
    exact ⟨(hqr.stays i hq).1, (hqr.stays i hq).2.trans hwaiting⟩
  load := hqr.load.trans hpq.load
  length_le := hpq.length_le.trans hqr.length_le

/-- Nothing is merged, and nodes that come were in no subgraph. -/
theorem of_parent (h : p.Addressed) (hp : p.Forest)
    (hlength : p.entries.length ≤ q.entries.length)
    (hparent : ∀ i, (q.entry i).parent = (p.entry i).parent)
    (hpending : ∀ i, (q.entry i).pending = (p.entry i).pending)
    (hmembership : ∀ {node i}, p.membership node = some i → q.membership node = some i) :
    p.Shifts q := by
  have hfollows : p.Follows q := hp.follows hlength hparent hmembership
  have hwaiting (i : Nat) : q.waiting i = p.waiting i := congrArg List.flatten (hpending i)
  have hsurvives (i : Nat) : q.Survives i ↔ p.Survives i := by
    rw [Survives, Survives, hparent]
  constructor
  case follows => exact hfollows
  case addressed =>
    intro i d hd
    exact hfollows (h i d (hwaiting i ▸ hd))
  case backlog =>
    intro node
    unfold Partition.backlog
    rcases hnode : p.membership node with _ | i
    · -- Nothing was posted for the node while it was in no subgraph.
      split
      · rfl
      · next j _ =>
        rw [hwaiting]
        apply h.filter_waiting_eq_nil
        rw [WellFormed.of_eq_none_iff.2 hnode]
        exact (Option.some_ne_none _).symm
    · rw [hmembership hnode]
      simp only [hwaiting]
  case emptied => exact fun i hi hq ↦ absurd ((hsurvives i).2 hi) hq
  case stays => exact fun i hi ↦ ⟨fun hq ↦ hi ((hsurvives i).1 hq), hwaiting i⟩
  case load => exact load_congr hlength hpending
  case length_le => exact hlength

theorem assign (h : p.Addressed) (hp : p.Forest) (hnode : p.of node = none)
    (hs : p.Survives s.index) : p.Shifts (p.assign node s) := by
  have hgrows := grows_assign p node s
  refine of_parent h hp hgrows.length_le hgrows.parent (pending_assign p node s) ?_
  intro other i hi
  rw [membership_assign hs, if_neg]
  · exact hi
  · intro heq
    rw [heq, WellFormed.of_eq_none_iff.1 hnode] at hi
    cases hi

theorem create (h : p.Addressed) (hp : p.Forest) : p.Shifts p.create.2 :=
  of_parent h hp (grows_create p).length_le (grows_create p).parent
    (fun i ↦ by rw [entry_create]) (fun hi ↦ hi)

/-- The deliveries of the loser go behind those of the winner, which are for other nodes. -/
theorem merge (h : p.Addressed) (hp : p.WellFormed) (ha : p.of a = some s) (hb : p.of b = some t)
    (hne : s ≠ t) : p.Shifts (p.merge s.index t.index) := by
  have hne' : s.index ≠ t.index := fun heq ↦ hne (congrArg SubgraphId.mk heq)
  have hs := hp.of_survives ha
  have ht := hp.of_survives hb
  have hpoured := hp.poured_merge (hp.of_lt ha) (hp.of_lt hb) hne' hs ht
  have hfollows := hp.follows_merge (hp.of_lt ha) (hp.of_lt hb) hne' hs ht
  have hparent := parent_merge (hp.of_lt ha) (hp.of_lt hb) hne'
  have hsurvives (i : Nat) (hit : i ≠ t.index) :
      (p.merge s.index t.index).Survives i ↔ p.Survives i := by
    rw [Survives, Survives, hparent, if_neg hit]
  have hloser : ¬ (p.merge s.index t.index).Survives t.index := by
    rw [Survives, hparent, if_pos rfl]
    exact hne'
  have hfind : (p.merge s.index t.index).find ⟨t.index⟩ =
      (p.merge s.index t.index).find ⟨s.index⟩ := by
    have hfind := find_merge (hp.of_lt ha) (hp.of_lt hb) hne' hp.toForest hs ht
    calc
      (p.merge s.index t.index).find ⟨t.index⟩ = ⟨s.index⟩ := by
        rw [hfind, find_of_survives ht, mergedName, if_pos rfl]
      _ = (p.merge s.index t.index).find ⟨s.index⟩ := by
        rw [hfind, find_of_survives hs, mergedName, if_neg hne']
  constructor
  case follows => exact hfollows
  case addressed => exact h.poured hfollows hpoured hfind
  case backlog =>
    intro node
    unfold Partition.backlog
    rw [hp.membership_merge]
    have hapart {i j : Nat} (hi : p.membership node = some i) (hj : p.Survives j) (hij : i ≠ j) :
        (p.waiting j).filter (·.binding.node = node) = [] := by
      apply h.filter_waiting_eq_nil
      rw [find_of_survives hj, Ne, hp.of_eq_some_iff, hi]
      exact fun heq ↦ hij (Option.some.inj heq)
    rcases hnode : p.membership node with _ | i
    · rfl
    · by_cases hit : i = t.index
      · subst hit
        rw [if_pos rfl]
        simp only [hpoured.waiting]
        rw [if_neg hne', if_true, List.filter_append, hapart hnode hs hne'.symm, List.nil_append]
      · rw [if_neg fun heq ↦ hit (Option.some.inj heq)]
        simp only [hpoured.waiting]
        rw [if_neg hit]
        split
        · next his =>
          rw [List.filter_append, hapart hnode ht hit, List.append_nil, his]
        · rfl
  case emptied =>
    intro i hi hq
    have hit : i = t.index := by
      by_contra hit
      exact hq ((hsurvives i hit).2 hi)
    rw [hpoured.waiting, if_pos hit]
  case stays =>
    intro i hi
    have hit : i ≠ t.index := fun heq ↦ hi (heq ▸ ht)
    have his : i ≠ s.index := fun heq ↦ hi (heq ▸ hs)
    rw [hsurvives i hit, hpoured.waiting, if_neg hit, if_neg his]
    exact ⟨hi, rfl⟩
  case load => exact hpoured.load
  case length_le => exact hpoured.length.ge

theorem meets (h : p.Addressed) (hp : p.WellFormed) (hab : a ≠ b) (hm : Meets a b p into q) :
    p.Shifts q := by
  cases hm with
  | already ha hb => exact of_parent h hp.toForest le_rfl (fun _ ↦ rfl) (fun _ ↦ rfl) (fun hi ↦ hi)
  | target ha hb => exact assign h hp.toForest hb (hp.of_survives ha)
  | source ha hb => exact assign h hp.toForest ha (hp.of_survives hb)
  | new ha hb =>
    have hcreate := create h hp.toForest
    have ha' := (of_create hp a).trans ha
    have hsource := assign hcreate.addressed hp.create.toForest ha' (survives_create p)
    have hforest := hp.create.toForest.congr (grows_assign _ a p.create.1).length_le
      (grows_assign _ a p.create.1).parent
    have htarget := assign hsource.addressed hforest (hp.of_assign_create hb hab)
      (survives_assign (survives_create p))
    exact (hcreate.trans hsource).trans htarget
  | first ha hb hne => exact merge h hp ha hb hne
  | second ha hb hne => exact merge h hp hb ha hne.symm

/-- What waits for a node waits for it also when it is joined with another one. -/
theorem join (h : p.Addressed) (hp : p.WellFormed) (hab : a ≠ b) : p.Shifts (p.join a b) := by
  obtain ⟨into, q, hm, hjoin⟩ := hp.exists_meets a b
  have hq := meets h hp hab hm
  rw [hjoin]
  refine hq.trans (of_parent hq.addressed (hm.wellFormed hp hab).toForest
    (length_modify q _ _).ge (fun i ↦ ?_) (pending_addEdge q into (a, b)) (fun hi ↦ hi))
  rw [addEdge, entry_modify]
  split <;> rfl

/-- A queue that feeds a subgraph from now on moves no delivery. -/
theorem bridged (h : p.Addressed) (hp : p.Forest) (producer consumer : SubgraphId)
    (queue : QueueId) : p.Shifts ((p.setInbound consumer queue).link producer consumer) := by
  have hentry (i : Nat) : ((p.setInbound consumer queue).entry i).parent = (p.entry i).parent ∧
      ((p.setInbound consumer queue).entry i).pending = (p.entry i).pending := by
    rw [setInbound, entry_modify]
    split <;> exact ⟨rfl, rfl⟩
  exact of_parent h hp (length_modify p _ _).ge (fun i ↦ (hentry i).1) (fun i ↦ (hentry i).2)
    (fun hi ↦ hi)

end Shifts

theorem waiting_receive (p : Partition Batch) (s : SubgraphId) (i : Nat) :
    (p.receive s).2.waiting i = if i = s.index then [] else p.waiting i := by
  unfold waiting receive
  rw [entry_modify]
  by_cases hi : i = s.index
  · subst hi
    rw [if_pos rfl]
    split
    · rfl
    · next hlt =>
      rw [entry_of_length_le (Nat.not_lt.1 fun h ↦ hlt ⟨rfl, h⟩)]
      rfl
  · rw [if_neg hi, if_neg fun h ↦ hi h.1.symm]

theorem Addressed.receive (h : p.Addressed) (hp : p.Forest) (s : SubgraphId) :
    (p.receive s).2.Addressed := by
  intro i d hd
  rw [waiting_receive] at hd
  split at hd
  · cases hd
  · exact (SameTopology.receive p s).follows hp (h i d hd)

theorem routed_receive (h : p.Routed) (s : SubgraphId) : (p.receive s).2.Routed := by
  intro i d hd
  rw [(SameTopology.receive p s).membership]
  rw [waiting_receive] at hd
  split at hd
  · cases hd
  · exact h i d hd

/-- What waits for a node is received by its subgraph or goes on waiting. -/
theorem Addressed.backlog_receive (h : p.Addressed) (hp : p.WellFormed) {s : SubgraphId}
    (hs : p.Survives s.index) (node : NodeId) :
    p.backlog node = (p.waiting s.index).filter (·.binding.node = node) ++
      (p.receive s).2.backlog node := by
  have hmembership := (SameTopology.receive p s).membership
  unfold backlog
  rw [hmembership]
  have hapart (hnode : p.membership node ≠ some s.index) :
      (p.waiting s.index).filter (·.binding.node = node) = [] := by
    apply h.filter_waiting_eq_nil
    rwa [find_of_survives hs, Ne, hp.of_eq_some_iff]
  rcases hnode : p.membership node with _ | i
  · rw [hapart (by rw [hnode]; exact nofun)]
    rfl
  · simp only [waiting_receive]
    split
    · next his => rw [his, List.filter_nil, List.append_nil]
    · next his =>
      rw [hapart (by rw [hnode]; exact fun heq ↦ his (Option.some.inj heq)), List.nil_append]

/-- Deliveries that are received count as attempted, whatever was attempted before. -/
theorem Addressed.balance_receive (h : p.Addressed) (hp : p.WellFormed) {s : SubgraphId}
    (hs : p.Survives s.index) (node : NodeId) (attempted : List Delivery) :
    attempted.filter (·.binding.node = node) ++ p.backlog node =
      (attempted ++ p.waiting s.index).filter (·.binding.node = node) ++
        (p.receive s).2.backlog node := by
  calc
    attempted.filter (·.binding.node = node) ++ p.backlog node =
        attempted.filter (·.binding.node = node) ++
          ((p.waiting s.index).filter (·.binding.node = node) ++
            (p.receive s).2.backlog node) := by
      rw [h.backlog_receive hp hs]
    _ = (attempted ++ p.waiting s.index).filter (·.binding.node = node) ++
          (p.receive s).2.backlog node := by
      rw [List.filter_append, List.append_assoc]

theorem sameTopology_foldl_forward (p : Partition Batch) (indices : List Nat) :
    p.SameTopology (indices.foldl forward p) := by
  induction indices generalizing p with
  | nil => exact .refl p
  | cons i indices ih => exact (SameTopology.forward p i).trans (ih (p.forward i))

/-- What is forwarded from the first entries is behind what their survivors had, entry by
entry. -/
theorem WellFormed.waiting_foldl_forward (hp : p.WellFormed) (n i : Nat) :
    ((List.range n).foldl forward p).waiting i =
      if p.Survives i then p.waiting i ++ p.stranded n i
      else if i < n then [] else p.waiting i := by
  induction n generalizing i with
  | zero => simp [stranded]
  | succ n ih =>
    set q := (List.range n).foldl forward p with hq
    have htopology : p.SameTopology q := sameTopology_foldl_forward p _
    have hforest := hp.toForest.congr htopology.length.ge htopology.sameDivision.parent
    have hroot : q.root n = p.root n :=
      hp.toForest.root_congr htopology.length.ge htopology.sameDivision.parent n
    have hsurvives : q.Survives n ↔ p.Survives n := htopology.sameDivision.survives_iff n
    have hstranded (i : Nat) : p.stranded (n + 1) i =
        p.stranded n i ++ if p.root n = i ∧ n ≠ i then p.waiting n else [] := by
      simp [stranded, List.range_succ]
    rw [List.range_succ, List.foldl_append, List.foldl_cons, List.foldl_nil, ← hq, hstranded]
    by_cases hn : p.Survives n
    · -- A survivor forwards nothing.
      rw [forward_of_survives (hsurvives.2 hn), ih, root_of_survives hn]
      by_cases hi : p.Survives i
      · rw [if_pos hi, if_pos hi, if_neg fun h ↦ h.2 h.1, List.append_nil]
      · have hin : i ≠ n := fun h ↦ hi (h ▸ hn)
        rw [if_neg hi, if_neg hi]
        exact if_congr (by omega) rfl rfl
    · have hpoured := hforest.poured_forward (fun h ↦ hn (hsurvives.1 h))
      rw [hpoured.waiting, hroot, ih, ih, ih]
      by_cases hin : i = n
      · subst hin
        rw [if_pos rfl, if_neg hn, if_pos (Nat.lt_succ_self i)]
      · rw [if_neg hin]
        by_cases hi : p.Survives i
        · rw [if_pos hi, if_pos hi]
          by_cases hir : i = p.root n
          · rw [if_pos hir, ← hir, if_pos hi, if_neg hn, if_neg (lt_irrefl n),
              if_pos ⟨rfl, Ne.symm hin⟩, List.append_assoc]
          · rw [if_neg hir, if_neg fun h ↦ hir h.1.symm, List.append_nil]
        · have hir : i ≠ p.root n := fun h ↦ hi (h ▸ hp.survives_root n)
          rw [if_neg hi, if_neg hi, if_neg hir]
          exact if_congr (by omega) rfl rfl

/-- Forwarding empties all merged entries. What waited for them is behind what their survivors
had, entry by entry. -/
theorem WellFormed.waiting_forwardAll (hp : p.WellFormed) (i : Nat) : p.forwardAll.waiting i =
    if p.Survives i then p.waiting i ++ p.stranded p.entries.length i else [] := by
  rw [forwardAll, hp.waiting_foldl_forward]
  by_cases hi : p.Survives i
  · rw [if_pos hi, if_pos hi]
  · rw [if_neg hi, if_neg hi, if_pos (lt_length_of_not_survives hi)]

theorem Addressed.forwardAll (h : p.Addressed) (hp : p.WellFormed) : p.forwardAll.Addressed := by
  unfold Partition.forwardAll
  generalize List.range p.entries.length = indices
  induction indices generalizing p with
  | nil => exact h
  | cons i indices ih =>
    have htopology := SameTopology.forward p i
    refine ih ?_ (hp.congr htopology.sameDivision)
    by_cases hi : p.Survives i
    · rwa [forward_of_survives hi]
    · have hfind := htopology.sameDivision.toGrows.find_eq hp.toForest
      refine h.poured (htopology.follows hp.toForest) (hp.poured_forward hi) ?_
      rw [hfind, hfind, find, find, hp.root_root]

/-- What is forwarded for a node goes behind what waits for it already. -/
theorem Addressed.backlog_forwardAll (h : p.Addressed) (hp : p.WellFormed) (node : NodeId) :
    p.forwardAll.backlog node = p.backlog node ++ ((List.range p.entries.length).flatMap fun j ↦
      if p.Survives j then [] else p.waiting j).filter (·.binding.node = node) := by
  unfold backlog
  rw [(SameTopology.forwardAll p).membership]
  have hapart {j : Nat} (hnode : p.of node ≠ some ⟨p.root j⟩) :
      (p.waiting j).filter (·.binding.node = node) = [] := h.filter_waiting_eq_nil hnode
  rcases hnode : p.membership node with _ | i
  · symm
    rw [List.nil_append, List.filter_flatMap, List.flatMap_eq_nil_iff]
    intro j _
    split
    · rfl
    · apply hapart
      rw [WellFormed.of_eq_none_iff.2 hnode]
      exact nofun
  · have hof : p.of node = some ⟨i⟩ := hp.of_eq_some_iff.2 hnode
    have hi := hp.of_survives hof
    simp only [hp.waiting_forwardAll]
    -- Of what is forwarded from an entry there is nothing for the node unless it goes to its own.
    have hforwarded (j : Nat) :
        (if p.root j = i ∧ j ≠ i then p.waiting j else []).filter (·.binding.node = node) =
          (if p.Survives j then [] else p.waiting j).filter (·.binding.node = node) := by
      by_cases hj : p.Survives j
      · rw [if_pos hj, root_of_survives hj, if_neg fun h ↦ h.2 h.1]
      · rw [if_neg hj]
        by_cases hroot : p.root j = i
        · rw [if_pos ⟨hroot, fun h ↦ hj (h ▸ hi)⟩]
        · rw [if_neg fun h ↦ hroot h.1, List.filter_nil, hapart]
          rw [hof]
          exact fun heq ↦ hroot (congrArg SubgraphId.index (Option.some.inj heq)).symm
    rw [if_pos hi]
    calc
      (p.waiting i ++ p.stranded p.entries.length i).filter (·.binding.node = node) =
          (p.waiting i).filter (·.binding.node = node) ++
            (List.range p.entries.length).flatMap fun j ↦
              (if p.root j = i ∧ j ≠ i then p.waiting j else []).filter
                (·.binding.node = node) := by
        rw [List.filter_append, stranded, List.filter_flatMap]
      _ = (p.waiting i).filter (·.binding.node = node) ++
            ((List.range p.entries.length).flatMap fun j ↦
              if p.Survives j then [] else p.waiting j).filter (·.binding.node = node) := by
        rw [funext hforwarded, List.filter_flatMap]

/-- A partition in which the same waits for every node. -/
structure Carries (p q : Partition Batch) : Prop where
  routed : q.Routed
  backlog : ∀ node, q.backlog node = p.backlog node

theorem Carries.of_eq (h : p.Routed) (hwaiting : ∀ i, q.waiting i = p.waiting i)
    (hmembership : q.membership = p.membership) : p.Carries q where
  routed i d hd := by
    rw [hmembership]
    exact h i d (hwaiting i ▸ hd)
  backlog node := by
    unfold Partition.backlog
    rw [hmembership]
    split
    · rfl
    · rw [hwaiting]

theorem Shifts.carries (h : p.Shifts q) (hp : p.WellFormed) (hq : q.WellFormed)
    (hrouted : p.Routed) : p.Carries q where
  routed := by
    refine h.addressed.routed hq fun i hi ↦ ?_
    by_cases hold : p.Survives i
    · exact h.emptied i hold hi
    · rw [(h.stays i hold).2, hrouted.waiting_merged hp hold]
  backlog := h.backlog

/-- A start finds all deliveries where they belong. -/
theorem Carries.forwardAll (h : p.Routed) (hp : p.WellFormed) : p.Carries p.forwardAll := by
  have htopology := SameTopology.forwardAll p
  have hq := hp.congr htopology.sameDivision
  constructor
  case routed =>
    refine (h.addressed.forwardAll hp).routed hq fun i hi ↦ ?_
    rw [hp.waiting_forwardAll]
    exact if_neg ((htopology.sameDivision.survives_iff i).not.1 hi)
  case backlog =>
    intro node
    have hnone : ((List.range p.entries.length).flatMap fun j ↦
        if p.Survives j then [] else p.waiting j) = [] := by
      rw [List.flatMap_eq_nil_iff]
      intro j _
      split
      · rfl
      · next hj => exact h.waiting_merged hp hj
    calc
      p.forwardAll.backlog node = p.backlog node ++ ((List.range p.entries.length).flatMap fun j ↦
          if p.Survives j then [] else p.waiting j).filter (·.binding.node = node) :=
        h.addressed.backlog_forwardAll hp node
      _ = p.backlog node := by rw [hnone, List.filter_nil, List.append_nil]

end SignalFlow.Partition
