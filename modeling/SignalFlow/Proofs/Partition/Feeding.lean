import SignalFlow.Proofs.Partition.Join

/-!
# Queues between subgraphs

The links of a partition, read between the survivors of their ends, say which subgraph feeds
which. A renaming of survivors carries this relation along. Two nodes may be joined unless their
subgraphs are different and are both fed, or one feeds the other.
-/

namespace SignalFlow.Partition

variable {β : Type} {p q : Partition β} {s t x y : SubgraphId} {queue : QueueId}

/-- A queue leads from one surviving subgraph to another. -/
def Feeds (p : Partition β) (s t : SubgraphId) : Prop :=
  ∃ link ∈ p.links, p.find ⟨link.1⟩ = s ∧ p.find ⟨link.2⟩ = t

instance (p : Partition β) (s t : SubgraphId) : Decidable (p.Feeds s t) :=
  inferInstanceAs (Decidable (∃ link ∈ p.links, _))

theorem Renames.feeds {rename : SubgraphId → SubgraphId} (h : Renames rename p q) :
    q.Feeds x y ↔ ∃ s t, p.Feeds s t ∧ rename s = x ∧ rename t = y := by
  simp only [Feeds, h.links, h.find]
  constructor
  · rintro ⟨link, hlink, hx, hy⟩
    exact ⟨_, _, ⟨link, hlink, rfl, rfl⟩, hx, hy⟩
  · rintro ⟨s, t, ⟨link, hlink, hs, ht⟩, hx, hy⟩
    exact ⟨link, hlink, hs ▸ hx, ht ▸ hy⟩

theorem Grows.feeds (h : p.Grows q) (hp : p.Forest) : q.Feeds x y ↔ p.Feeds x y := by
  simp only [Feeds, h.links, h.find_eq hp]

theorem linked_iff (p : Partition β) (s t : SubgraphId) :
    p.linked s t ↔ p.Feeds (p.find s) (p.find t) ∨ p.Feeds (p.find t) (p.find s) := by
  simp only [linked, List.any_eq_true, Bool.or_eq_true, Bool.and_eq_true, beq_iff_eq, Feeds,
    find, SubgraphId.mk.injEq, ← exists_or, and_or_left]

/-- Two nodes may be joined: their subgraphs, if they are different, are not both fed, and
neither feeds the other. -/
def MayJoin (p : Partition β) (a b : NodeId) : Prop :=
  ∀ s t, p.of a = some s → p.of b = some t → s ≠ t →
    (p.inbound s = none ∨ p.inbound t = none) ∧ ¬ p.Feeds s t ∧ ¬ p.Feeds t s

theorem checkMerge_eq_ok_iff (hp : p.Forest) :
    p.checkMerge s t = .ok () ↔ (p.find s ≠ p.find t →
      (p.inbound s = none ∨ p.inbound t = none) ∧
        ¬ p.Feeds (p.find s) (p.find t) ∧ ¬ p.Feeds (p.find t) (p.find s)) := by
  have hs : p.inbound (p.find s) = p.inbound s := inbound_congr (hp.find_find s)
  have ht : p.inbound (p.find t) = p.inbound t := inbound_congr (hp.find_find t)
  have hlinked := linked_iff p (p.find s) (p.find t)
  rw [hp.find_find, hp.find_find] at hlinked
  simp only [checkMerge, hs, ht]
  by_cases heq : p.find s = p.find t
  · simp [heq]
  · rw [if_neg heq]
    by_cases hfed : (p.inbound s).isSome && (p.inbound t).isSome
    · rw [if_pos hfed]
      simp only [Bool.and_eq_true, Option.isSome_iff_ne_none] at hfed
      simp [heq, hfed.1, hfed.2]
    · rw [if_neg hfed]
      have hfree : p.inbound s = none ∨ p.inbound t = none := by
        simpa [Option.isSome_iff_ne_none, imp_iff_not_or] using hfed
      by_cases hl : p.linked (p.find s) (p.find t)
      · rw [if_pos hl]
        simpa [heq, hfree, imp_iff_not_or] using hlinked.1 hl
      · rw [if_neg hl]
        simpa [heq, hfree, not_or] using mt hlinked.2 hl

theorem mayJoin_iff (hp : p.WellFormed) {a b : NodeId} :
    p.MayJoin a b ↔ ∀ s t, p.of a = some s → p.of b = some t → p.checkMerge s t = .ok () := by
  refine forall_congr' fun s ↦ forall_congr' fun t ↦ forall₂_congr fun hs ht ↦ ?_
  rw [checkMerge_eq_ok_iff hp.toForest, hp.find_of hs, hp.find_of ht]

theorem mayJoin_iff_touches {a b : NodeId} : p.MayJoin a b ↔ ∀ s t, p.Touches a b s →
    p.Touches a b t → s ≠ t → (p.inbound s = none ∨ p.inbound t = none) ∧ ¬ p.Feeds s t := by
  constructor
  · intro hmay s t hs ht hne
    have hsame {n : NodeId} (hs : p.of n = some s) (ht : p.of n = some t) : False :=
      hne (Option.some.inj (hs.symm.trans ht))
    rcases hs with hs | hs <;> rcases ht with ht | ht
    · exact (hsame hs ht).elim
    · exact ⟨(hmay s t hs ht hne).1, (hmay s t hs ht hne).2.1⟩
    · exact ⟨(hmay t s ht hs hne.symm).1.symm, (hmay t s ht hs hne.symm).2.2⟩
    · exact (hsame hs ht).elim
  · intro hmay s t hs ht hne
    exact ⟨(hmay s t (.inl hs) (.inr ht) hne).1, (hmay s t (.inl hs) (.inr ht) hne).2,
      (hmay t s (.inr ht) (.inl hs) hne.symm).2⟩

/-- A node that is in no subgraph may be joined with any other. -/
theorem mayJoin_of_none {a b : NodeId} (h : p.of a = none ∨ p.of b = none) : p.MayJoin a b := by
  intro s t hs ht
  rw [hs, ht] at h
  exact h.elim nofun nofun

theorem MayJoin.exists_joined (hp : p.WellFormed) {a b : NodeId} (hab : a ≠ b)
    (h : p.MayJoin a b) : ∃ into, Joined a b into p (p.join a b) :=
  hp.join hab fun s t hs ht hst ↦ (h s t hs ht hst).1

/-- A partition in which a new queue leads from one subgraph to another, and nothing else is
new. -/
structure Bridged (producer consumer : SubgraphId) (queue : QueueId) (p q : Partition β) :
    Prop where
  wellFormed : q.WellFormed
  of : ∀ node, q.of node = p.of node
  find : ∀ s, q.find s = p.find s
  feeds : ∀ {s t}, q.Feeds s t ↔ p.Feeds s t ∨ producer = s ∧ consumer = t
  inbound : ∀ s, q.inbound s = if p.find s = consumer then some queue else p.inbound s

theorem entry_bridge {producer consumer : SubgraphId} (hconsumer : p.Survives consumer.index)
    (hlt : consumer.index < p.entries.length) (i : Nat) :
    ((p.setInbound consumer queue).link producer consumer).entry i =
      { p.entry i with
        inbound := if i = consumer.index then some queue else (p.entry i).inbound } := by
  change (p.setInbound consumer queue).entry i = _
  rw [setInbound, entry_modify, root_of_survives hconsumer]
  by_cases hi : i = consumer.index
  · subst hi
    rw [if_pos ⟨rfl, hlt⟩, if_pos rfl]
  · rw [if_neg fun h ↦ hi h.1.symm, if_neg hi]

theorem WellFormed.bridge (hp : p.WellFormed) {producer consumer : SubgraphId}
    (hproducer : p.Survives producer.index) (hconsumer : p.Survives consumer.index)
    (hlt : consumer.index < p.entries.length) :
    Bridged producer consumer queue p ((p.setInbound consumer queue).link producer consumer) := by
  have hentry (i : Nat) : ((p.setInbound consumer queue).link producer consumer).entry i = _ :=
    entry_bridge hconsumer hlt i
  have hlength : ((p.setInbound consumer queue).link producer consumer).entries.length =
      p.entries.length := length_modify p _ _
  have hroot := hp.root_congr hlength.ge fun i ↦ by rw [hentry i]
  have hfind (s : SubgraphId) :
      ((p.setInbound consumer queue).link producer consumer).find s = p.find s :=
    congrArg SubgraphId.mk (hroot s.index)
  exact
    { wellFormed :=
        { toForest := hp.toForest.congr hlength.ge fun i ↦ by rw [hentry i]
          membership_survives := fun {_ i} h ↦ by
            rw [Survives, hentry]
            exact hp.membership_survives h
          mem_nodes := by
            intro node i
            rw [hentry]
            exact hp.mem_nodes
          nodup := fun i ↦ by rw [hentry]; exact hp.nodup i }
      of := fun node ↦ by rw [Partition.of, funext hroot]; rfl
      find := hfind
      feeds := by
        intro s t
        simp only [Feeds, hfind]
        simp only [link, List.mem_append, List.mem_singleton, or_and_right, exists_or,
          exists_eq_left, find_of_survives hproducer, find_of_survives hconsumer]
        rfl
      inbound := fun s ↦ by
        have hs : p.root s.index = consumer.index ↔ p.find s = consumer :=
          ⟨congrArg SubgraphId.mk, congrArg SubgraphId.index⟩
        rw [Partition.inbound, survivor, hroot, hentry]
        simp only [hs]
        rfl }

end SignalFlow.Partition
