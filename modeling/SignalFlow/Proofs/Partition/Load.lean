import Mathlib.Algebra.BigOperators.Group.Finset.Basic
import SignalFlow.Proofs.Partition.Contents

/-!
# No batch is lost

The load of a partition is all that waits for its entries. Sending a batch adds it and receiving
takes what waits for one entry. Everything else only pours what waits for one entry behind what
waits for another one, which leaves the load as it is.
-/

namespace SignalFlow.Partition

variable {β : Type} {p q : Partition β} {a b : NodeId} {s into : SubgraphId} {source target : Nat}

/-- What waits for all entries together. -/
def load (p : Partition β) : Multiset β :=
  ∑ i ∈ Finset.range p.entries.length, ((p.entry i).pending : Multiset β)

/-- What waits for one entry was put behind what waits for another one. -/
structure Poured (source target : Nat) (p q : Partition β) : Prop where
  source_lt : source < p.entries.length
  target_lt : target < p.entries.length
  ne : source ≠ target
  length : q.entries.length = p.entries.length
  pending : ∀ i, (q.entry i).pending = if i = source then [] else
    if i = target then (p.entry target).pending ++ (p.entry source).pending
    else (p.entry i).pending

theorem pending_of_length_le {i : Nat} (h : p.entries.length ≤ i) : (p.entry i).pending = [] := by
  rw [entry_of_length_le h]
  rfl

/-- Nothing waits for entries that there are not. -/
theorem load_eq_sum {n : Nat} (h : p.entries.length ≤ n) :
    p.load = ∑ i ∈ Finset.range n, ((p.entry i).pending : Multiset β) := by
  refine Finset.sum_subset (Finset.range_subset_range.2 h) fun i _ hi ↦ ?_
  rw [Finset.mem_range, not_lt] at hi
  rw [pending_of_length_le hi]
  rfl

theorem load_congr (hlength : p.entries.length ≤ q.entries.length)
    (hpending : ∀ i, (q.entry i).pending = (p.entry i).pending) : q.load = p.load := by
  rw [load_eq_sum hlength]
  exact Finset.sum_congr rfl fun i _ ↦ congrArg _ (hpending i)

/-- What waits for one entry is apart from what waits for all others. -/
theorem load_eq_add {i : Nat} (hi : i < p.entries.length) : p.load = (p.entry i).pending +
    ∑ j ∈ (Finset.range p.entries.length).erase i, ((p.entry j).pending : Multiset β) :=
  (Finset.add_sum_erase _ _ (Finset.mem_range.2 hi)).symm

/-- A change of one entry changes the load by what it takes from that entry and gives to it. -/
theorem load_add_pending {i : Nat} (hi : i < p.entries.length)
    (hlength : q.entries.length = p.entries.length)
    (hother : ∀ j, j ≠ i → (q.entry j).pending = (p.entry j).pending) :
    q.load + (p.entry i).pending = p.load + (q.entry i).pending := by
  have hrest : ∑ j ∈ (Finset.range q.entries.length).erase i, ((q.entry j).pending : Multiset β) =
      ∑ j ∈ (Finset.range p.entries.length).erase i, ((p.entry j).pending : Multiset β) := by
    rw [hlength]
    refine Finset.sum_congr rfl fun j hj ↦ ?_
    rw [hother j (Finset.ne_of_mem_erase hj)]
  set rest := ∑ j ∈ (Finset.range p.entries.length).erase i, ((p.entry j).pending : Multiset β)
  calc
    q.load + (p.entry i).pending =
        (q.entry i).pending + rest + (p.entry i).pending := by
      rw [load_eq_add (hlength ▸ hi), hrest]
    _ = (p.entry i).pending + rest + (q.entry i).pending := by
      rw [add_comm, ← add_assoc, add_right_comm]
    _ = p.load + (q.entry i).pending := by rw [load_eq_add hi]

theorem pending_send (p : Partition β) (s : SubgraphId) (batch : β) (i : Nat) :
    ((p.send s batch).entry i).pending = if s.index = i ∧ i < p.entries.length then
      (p.entry i).pending ++ [batch] else (p.entry i).pending := by
  rw [send, entry_modify]
  split <;> rfl

theorem pending_foldl_send (p : Partition β) (batch : SubgraphId → β) {ids : List SubgraphId}
    (hnodup : ids.Nodup) (hids : ∀ s ∈ ids, s.index < p.entries.length) (i : Nat) :
    ((ids.foldl (fun p s ↦ p.send s (batch s)) p).entry i).pending =
      (p.entry i).pending ++ if ⟨i⟩ ∈ ids then [batch ⟨i⟩] else [] := by
  induction ids generalizing p with
  | nil => simp
  | cons s ids ih =>
    obtain ⟨hs, hrest⟩ := List.nodup_cons.1 hnodup
    have hlt := hids s List.mem_cons_self
    have hlength : (p.send s (batch s)).entries.length = p.entries.length :=
      (SameTopology.send p s (batch s)).length
    rw [List.foldl_cons, ih _ hrest fun t ht ↦ hlength ▸ hids t (List.mem_cons_of_mem _ ht),
      pending_send]
    by_cases hi : s.index = i
    · subst hi
      rw [if_pos ⟨rfl, hlt⟩, if_neg hs, if_pos List.mem_cons_self, List.append_nil]
    · have hne : (⟨i⟩ : SubgraphId) ≠ s := fun heq ↦ hi (congrArg SubgraphId.index heq).symm
      rw [if_neg fun h ↦ hi h.1]
      congr 1
      exact if_congr (by simp [hne]) rfl rfl

theorem load_send (hs : s.index < p.entries.length) (batch : β) :
    (p.send s batch).load = p.load + {batch} := by
  let waited : Multiset β := (p.entry s.index).pending
  have hsum : (p.send s batch).load + waited = p.load + {batch} + waited := by
    calc
      (p.send s batch).load + waited = p.load + ((p.send s batch).entry s.index).pending :=
        load_add_pending hs (SameTopology.send p s batch).length
          fun j hj ↦ (pending_send p s batch j).trans (if_neg fun h ↦ hj h.1.symm)
      _ = p.load + (waited + {batch}) := by
        rw [pending_send, if_pos ⟨rfl, hs⟩, ← Multiset.coe_add, Multiset.coe_singleton]
      _ = p.load + {batch} + waited := by rw [add_comm waited, add_assoc]
  exact add_right_cancel hsum

theorem load_foldl_send (p : Partition β) (batch : SubgraphId → β) {ids : List SubgraphId}
    (hids : ∀ s ∈ ids, s.index < p.entries.length) :
    (ids.foldl (fun p s ↦ p.send s (batch s)) p).load = p.load + (ids.map batch : List β) := by
  induction ids generalizing p with
  | nil => simp
  | cons s ids ih =>
    have hlength : (p.send s (batch s)).entries.length = p.entries.length :=
      (SameTopology.send p s (batch s)).length
    calc
      (ids.foldl (fun p s ↦ p.send s (batch s)) (p.send s (batch s))).load =
          (p.send s (batch s)).load + (ids.map batch : List β) :=
        ih _ fun t ht ↦ hlength ▸ hids t (List.mem_cons_of_mem _ ht)
      _ = p.load + {batch s} + (ids.map batch : List β) := by
        rw [load_send (hids s List.mem_cons_self)]
      _ = p.load + ((s :: ids).map batch : List β) := by
        rw [List.map_cons, ← Multiset.cons_coe, ← Multiset.singleton_add, add_assoc]

/-- What is received was waiting, and all else goes on waiting. -/
theorem load_receive (p : Partition β) (s : SubgraphId) :
    p.load = (p.receive s).1 + (p.receive s).2.load := by
  have hentry (j : Nat) : ((p.receive s).2.entry j).pending =
      if s.index = j ∧ j < p.entries.length then [] else (p.entry j).pending := by
    rw [receive, entry_modify]
    split <;> rfl
  have htopology := SameTopology.receive p s
  by_cases hs : s.index < p.entries.length
  · have hchanged := load_add_pending hs htopology.length
      fun j hj ↦ (hentry j).trans (if_neg fun h ↦ hj h.1.symm)
    rw [hentry, if_pos ⟨rfl, hs⟩, Multiset.coe_nil, add_zero] at hchanged
    rw [← hchanged]
    exact add_comm ..
  · have hnone : (p.receive s).1 = [] := pending_of_length_le (Nat.not_lt.1 hs)
    rw [hnone, Multiset.coe_nil, zero_add]
    refine (load_congr htopology.length.ge fun j ↦ ?_).symm
    exact (hentry j).trans (if_neg fun h ↦ hs (h.1.trans_lt h.2))

theorem Poured.load (h : Poured source target p q) : q.load = p.load := by
  set between := p.modify source fun e ↦ { e with pending := [] } with hbetween
  have hentry (j : Nat) : (between.entry j).pending =
      if j = source then [] else (p.entry j).pending := by
    rw [hbetween, entry_modify]
    by_cases hj : j = source
    · rw [if_pos hj, if_pos ⟨hj.symm, hj ▸ h.source_lt⟩]
    · rw [if_neg hj, if_neg fun h ↦ hj h.1.symm]
  have hlength : between.entries.length = p.entries.length := length_modify ..
  have htaken := load_add_pending h.source_lt hlength fun j hj ↦ (hentry j).trans (if_neg hj)
  have hput := load_add_pending (p := between) (q := q) (hlength ▸ h.target_lt)
    (h.length.trans hlength.symm) fun j hj ↦ by
      rw [h.pending, hentry, if_neg hj]
  rw [hentry, if_pos rfl, Multiset.coe_nil, add_zero] at htaken
  have hkept : (between.entry target).pending = (p.entry target).pending := by
    rw [hentry, if_neg h.ne.symm]
  have hpoured : (q.entry target).pending =
      (p.entry target).pending ++ (p.entry source).pending := by
    rw [h.pending, if_neg h.ne.symm, if_pos rfl]
  let waited : Multiset β := (p.entry target).pending
  have hsum : q.load + waited = p.load + waited := by
    calc
      q.load + waited = between.load + (q.entry target).pending := by rw [← hput, hkept]
      _ = between.load + (p.entry source).pending + waited := by
        rw [hpoured, ← Multiset.coe_add, add_comm ((p.entry target).pending : Multiset β),
          ← add_assoc]
      _ = p.load + waited := by rw [htaken]
  exact add_right_cancel hsum

/-- Forwarding an entry that was merged pours what waits for it into its survivor. -/
theorem Forest.poured_forward (hp : p.Forest) {i : Nat} (hi : ¬ p.Survives i) :
    Poured i (p.root i) p (p.forward i) := by
  have hne : i ≠ p.root i := fun h ↦ hi (h ▸ hp.survives_root i)
  have hlt := lt_length_of_not_survives hi
  constructor
  case source_lt => exact hlt
  case target_lt => exact hp.root_lt hlt
  case ne => exact hne
  case length => exact (SameTopology.forward p i).length
  case pending =>
    intro j
    simp only [forward, if_neg hne.symm, receive]
    rw [entry_modify, length_modify, entry_modify]
    by_cases hroot : j = p.root i
    · have hj : j ≠ i := fun h ↦ hne (h ▸ hroot)
      rw [if_pos ⟨hroot.symm, hroot ▸ hp.root_lt hlt⟩, if_neg fun h ↦ hj h.1.symm, if_neg hj,
        if_pos hroot, hroot]
    · rw [if_neg fun h ↦ hroot h.1.symm, if_neg hroot]
      by_cases hj : j = i
      · rw [if_pos hj, if_pos ⟨hj.symm, hj ▸ hlt⟩]
      · rw [if_neg hj, if_neg fun h ↦ hj h.1.symm]

theorem forward_of_survives {i : Nat} (hi : p.Survives i) : p.forward i = p :=
  if_pos (root_of_survives hi)

theorem Forest.load_forward (hp : p.Forest) (i : Nat) : (p.forward i).load = p.load := by
  by_cases hi : p.Survives i
  · rw [forward_of_survives hi]
  · exact (hp.poured_forward hi).load

theorem WellFormed.load_forwardAll (hp : p.WellFormed) : p.forwardAll.load = p.load := by
  unfold forwardAll
  generalize List.range p.entries.length = indices
  induction indices generalizing p with
  | nil => rfl
  | cons i indices ih =>
    have hforward := hp.congr (SameTopology.forward p i).sameDivision
    exact (ih hforward).trans (hp.load_forward i)

/-- A merge pours what waits for the loser into the winner. -/
theorem WellFormed.poured_merge (hp : p.WellFormed) {winner loser : Nat}
    (hwinner : winner < p.entries.length) (hloser : loser < p.entries.length)
    (hne : winner ≠ loser) (hwinner' : p.Survives winner) (hloser' : p.Survives loser) :
    Poured loser winner p (p.merge winner loser) where
  source_lt := hloser
  target_lt := hwinner
  ne := hne.symm
  length := length_merge p winner loser
  pending := pending_merge hp hwinner hloser hne hwinner' hloser'

end SignalFlow.Partition
