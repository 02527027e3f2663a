import SignalFlow.Proofs.Partition.Feeding
import SignalFlow.Proofs.Topology.Components
import SignalFlow.Proofs.Topology.Connection

/-!
# Partitions that represent a topology

A partition represents a topology if it has the components of its wiring as subgraphs, and its
queues as links and inbound queues. Each connection that is accepted keeps the representation.
The checks before a connection look at subgraphs, links and inbound queues; in a partition that
represents a lawful topology they let a connection through exactly if it keeps the laws.
-/

namespace SignalFlow

open SimpleGraph

namespace Partition

variable {β : Type} {p q : Partition β} {t : Topology} {a b : NodeId}

/-- A partition has the components of a topology as its subgraphs, and its queues between
them. -/
structure Represents (p : Partition β) (t : Topology) : Prop where
  wellFormed : p.WellFormed
  tracks : p.Tracks t.wiring
  placed : ∀ b ∈ t.bridges, ∃ producer consumer,
    (p.of b.source = some producer ∧ p.of b.writer = some producer) ∧
      p.of b.reader = some consumer ∧ p.of b.target = some consumer
  feeds : ∀ {x y}, p.Feeds x y ↔
    ∃ b ∈ t.bridges, p.of b.writer = some x ∧ p.of b.reader = some y
  inbound : ∀ {s queue}, p.inbound s = some queue ↔
    ∃ b ∈ t.bridges, b.queue = queue ∧ p.of b.reader = some (p.find s)

theorem represents_empty : (empty : Partition β).Represents [] where
  wellFormed := wellFormed_empty
  tracks := Topology.wiring_nil ▸ tracks_empty
  placed _ h := absurd h List.not_mem_nil
  feeds := by simp [Feeds, empty, Topology.bridges]
  inbound {s queue} := by
    rw [inbound_of_survives (survives_of_length_le (Nat.zero_le _))]
    simp [entry, empty, Entry.root, Topology.bridges]

namespace Represents

theorem congr (h : p.Represents t) (hpq : p.SameDivision q) : q.Represents t := by
  have hof := hpq.of_eq h.wellFormed.toForest
  exact
    { wellFormed := h.wellFormed.congr hpq
      tracks := h.tracks.congr hof
      placed := by simpa only [hof] using h.placed
      feeds := by
        intro x y
        rw [hpq.toGrows.feeds h.wellFormed.toForest, h.feeds]
        simp only [hof]
      inbound := by
        intro s queue
        rw [hpq.toGrows.inbound_eq h.wellFormed.toForest, h.inbound,
          hpq.toGrows.find_eq h.wellFormed.toForest]
        simp only [hof] }

/-- The reader of a bridge is in the subgraph that the queue feeds. -/
theorem inbound_reader (h : p.Represents t) {b : Bridge} (hb : b ∈ t.bridges) {s : SubgraphId}
    (hs : p.of b.reader = some s) : p.inbound s = some b.queue :=
  h.inbound.2 ⟨b, hb, rfl, by rw [hs, h.wellFormed.find_of hs]⟩

theorem join (h : p.Represents t) (hab : a ≠ b) (hmay : p.MayJoin a b) :
    (p.join a b).Represents (t ++ [.direct a b]) := by
  obtain ⟨into, hj⟩ := hmay.exists_joined h.wellFormed hab
  have hof {node : NodeId} {s : SubgraphId} (hs : p.of node = some s) :
      (p.join a b).of node = some (p.fuse a b into s) := hj.renames.of hs
  constructor
  case wellFormed => exact hj.wellFormed
  case tracks => exact Topology.wiring_direct t a b ▸ h.tracks.join hab hj
  case placed =>
    intro c hc
    rw [Topology.bridges_direct] at hc
    obtain ⟨producer, consumer, ⟨hsource, hwriter⟩, hreader, htarget⟩ := h.placed c hc
    exact ⟨_, _, ⟨hof hsource, hof hwriter⟩, hof hreader, hof htarget⟩
  case feeds =>
    intro x y
    rw [hj.renames.feeds, Topology.bridges_direct]
    constructor
    · rintro ⟨s, s', hs, rfl, rfl⟩
      obtain ⟨c, hc, hwriter, hreader⟩ := h.feeds.1 hs
      exact ⟨c, hc, hof hwriter, hof hreader⟩
    · rintro ⟨c, hc, hx, hy⟩
      obtain ⟨producer, consumer, ⟨-, hwriter⟩, hreader, -⟩ := h.placed c hc
      refine ⟨producer, consumer, h.feeds.2 ⟨c, hc, hwriter, hreader⟩, ?_, ?_⟩
      · exact Option.some.inj ((hof hwriter).symm.trans hx)
      · exact Option.some.inj ((hof hreader).symm.trans hy)
  case inbound =>
    intro s queue
    rw [hj.renames.inbound, Topology.bridges_direct]
    constructor
    · rintro ⟨u, hu, hus⟩
      obtain ⟨c, hc, hqueue, hreader⟩ := h.inbound.1 hu
      exact ⟨c, hc, hqueue, by rw [hof hreader, hus]⟩
    · rintro ⟨c, hc, hqueue, hs⟩
      obtain ⟨-, consumer, -, hreader, -⟩ := h.placed c hc
      refine ⟨consumer, hqueue ▸ h.inbound_reader hc hreader, ?_⟩
      rw [h.wellFormed.find_of hreader]
      exact Option.some.inj ((hof hreader).symm.trans hs)

/-- A direct connection may be made exactly if it keeps the laws. -/
theorem mayJoin_iff_lawful (h : p.Represents t) (hl : t.Lawful) :
    p.MayJoin a b ↔ Topology.Lawful (t ++ [.direct a b]) := by
  have hreachable {m n : NodeId} {x y : SubgraphId} (hm : p.of m = some x) (hn : p.of n = some y) :
      (Topology.wiring (t ++ [.direct a b])).Reachable m n ↔
        x = y ∨ p.Touches a b x ∧ p.Touches a b y := by
    rw [Topology.wiring_direct]
    exact h.tracks.reachable_sup_edge_iff hm hn
  rw [mayJoin_iff_touches]
  constructor
  · intro hmay
    constructor
    case apart =>
      intro c hc hr
      rw [Topology.bridges_direct] at hc
      obtain ⟨x, y, ⟨-, hwriter⟩, hreader, -⟩ := h.placed c hc
      have hne : x ≠ y := fun heq ↦ hl.apart c hc ((h.tracks.eq_iff hwriter hreader).1 heq)
      obtain ⟨hx, hy⟩ := ((hreachable hwriter hreader).1 hr).resolve_left hne
      exact (hmay x y hx hy hne).2 (h.feeds.2 ⟨c, hc, hwriter, hreader⟩)
    case single =>
      intro c hc d hd hr
      rw [Topology.bridges_direct] at hc hd
      obtain ⟨-, x, -, hcx, -⟩ := h.placed c hc
      obtain ⟨-, y, -, hdy, -⟩ := h.placed d hd
      by_contra hcd
      have hne : x ≠ y := fun heq ↦ hcd (hl.single c hc d hd ((h.tracks.eq_iff hcx hdy).1 heq))
      obtain ⟨hx, hy⟩ := ((hreachable hcx hdy).1 hr).resolve_left hne
      have hfree := (hmay x y hx hy hne).1
      rw [h.inbound_reader hc hcx, h.inbound_reader hd hdy] at hfree
      exact hfree.elim nofun nofun
  · intro hl' x y hx hy hne
    constructor
    · by_contra hfed
      simp only [not_or, ← Ne.eq_def, Option.ne_none_iff_exists'] at hfed
      obtain ⟨⟨queue, hqueue⟩, queue', hqueue'⟩ := hfed
      obtain ⟨c, hc, -, hcx⟩ := h.inbound.1 hqueue
      obtain ⟨d, hd, -, hdy⟩ := h.inbound.1 hqueue'
      rw [h.wellFormed.find_of_touches hx] at hcx
      rw [h.wellFormed.find_of_touches hy] at hdy
      rw [← Topology.bridges_direct t a b] at hc hd
      have hcd := hl'.single c hc d hd ((hreachable hcx hdy).2 (.inr ⟨hx, hy⟩))
      exact hne (Option.some.inj (hcx.symm.trans (hcd ▸ hdy)))
    · intro hfeeds
      obtain ⟨c, hc, hwriter, hreader⟩ := h.feeds.1 hfeeds
      rw [← Topology.bridges_direct t a b] at hc
      exact hl'.apart c hc ((hreachable hwriter hreader).2 (.inr ⟨hx, hy⟩))

end Represents

/-! ## Queued connections -/

/-- The writer and the reader of a bridge are new nodes, and its ends are different. -/
structure Fresh (p : Partition β) (b : Bridge) : Prop where
  of_writer : p.of b.writer = none
  of_reader : p.of b.reader = none
  writer_ne_reader : b.writer ≠ b.reader
  source_ne_target : b.source ≠ b.target
  source_ne_writer : b.source ≠ b.writer
  source_ne_reader : b.source ≠ b.reader
  target_ne_writer : b.target ≠ b.writer
  target_ne_reader : b.target ≠ b.reader

/-- A queue may lead to a node that has no subgraph, or is in another one than the source and
not fed. -/
def MayBridge (p : Partition β) (source target : NodeId) : Prop :=
  ∀ s, p.of target = some s → p.of source ≠ some s ∧ p.inbound s = none

/-- The partition with a new queue: its writer joins the source and its reader the target, and
it feeds the subgraph of the target from then on. -/
def bridge (p : Partition β) (b : Bridge) : Partition β :=
  let p := (p.join b.source b.writer).join b.reader b.target
  match p.of b.source, p.of b.target with
  | some producer, some consumer => (p.setInbound consumer b.queue).link producer consumer
  | _, _ => p

section Bridge

variable {b : Bridge}

theorem Represents.join_writer (h : p.Represents t) (hf : p.Fresh b) :
    (p.join b.source b.writer).Represents (t ++ [.direct b.source b.writer]) :=
  h.join hf.source_ne_writer (mayJoin_of_none (.inr hf.of_writer))

theorem Fresh.of_reader_join (hf : p.Fresh b) (h : p.Represents t) :
    (p.join b.source b.writer).of b.reader = none := by
  obtain ⟨_, hj⟩ := (mayJoin_of_none (.inr hf.of_writer)).exists_joined h.wellFormed
    hf.source_ne_writer
  exact hj.other hf.of_reader hf.source_ne_reader.symm hf.writer_ne_reader.symm

theorem Represents.join_reader (h : p.Represents t) (hf : p.Fresh b) :
    ((p.join b.source b.writer).join b.reader b.target).Represents
      (t ++ [.direct b.source b.writer, .direct b.reader b.target]) := by
  have hjoin := (h.join_writer hf).join hf.target_ne_reader.symm
    (mayJoin_of_none (.inl (hf.of_reader_join h)))
  rwa [List.append_assoc] at hjoin

/-- The new nodes hang at the old ones and do not connect them. -/
theorem Fresh.reachable_queued (hf : p.Fresh b) (h : p.Represents t) {m n : NodeId}
    (hm : m ≠ b.writer ∧ m ≠ b.reader) (hn : n ≠ b.writer ∧ n ≠ b.reader) :
    (Topology.wiring (t ++ [.queued b])).Reachable m n ↔ t.wiring.Reachable m n := by
  have hwriter (x : NodeId) : t.wiring.Reachable x b.writer → x = b.writer :=
    h.tracks.eq_of_reachable hf.of_writer
  have hreader (x : NodeId) : (Topology.wiring (t ++ [.direct b.source b.writer])).Reachable x
      b.reader → x = b.reader :=
    (h.join_writer hf).tracks.eq_of_reachable (hf.of_reader_join h)
  have hsplit : t ++ [.direct b.source b.writer, .direct b.reader b.target] =
      (t ++ [.direct b.source b.writer]) ++ [.direct b.reader b.target] := by simp
  let joined := t ++ [Connection.direct b.source b.writer]
  calc
    (Topology.wiring (t ++ [.queued b])).Reachable m n ↔
        (Topology.wiring joined ⊔ edge b.target b.reader).Reachable m n := by
      rw [Topology.wiring_queued, hsplit, Topology.wiring_direct, edge_comm]
    _ ↔ (Topology.wiring joined).Reachable m n :=
      reachable_sup_edge_of_isolated hreader hm.2 hn.2
    _ ↔ t.wiring.Reachable m n := by
      rw [Topology.wiring_direct, reachable_sup_edge_of_isolated hwriter hm.1 hn.1]

theorem adj_queued (t : Topology) {a b : NodeId} {c : Bridge} (hne : a ≠ b)
    (hab : (a, b) ∈ (Connection.queued c).edges) :
    (Topology.wiring (t ++ [.queued c])).Adj a b := by
  rw [Topology.wiring, fromRel_adj]
  exact ⟨hne, .inl (by simp [Topology.edges, hab])⟩

/-- The old bridges do not touch the new nodes. -/
theorem Fresh.old_ne (hf : p.Fresh b) (h : p.Represents t) {c : Bridge} (hc : c ∈ t.bridges) :
    (c.writer ≠ b.writer ∧ c.writer ≠ b.reader) ∧ c.reader ≠ b.writer ∧ c.reader ≠ b.reader := by
  obtain ⟨producer, consumer, ⟨-, hwriter⟩, hreader, -⟩ := h.placed c hc
  exact ⟨⟨ne_of_of hwriter hf.of_writer, ne_of_of hwriter hf.of_reader⟩,
    ne_of_of hreader hf.of_writer, ne_of_of hreader hf.of_reader⟩

/-- A topology stays lawful exactly if the ends of the queue are apart and no other queue feeds
the target. -/
theorem Fresh.lawful_queued_iff (hf : p.Fresh b) (h : p.Represents t) (hl : t.Lawful) :
    Topology.Lawful (t ++ [.queued b]) ↔ ¬ t.wiring.Reachable b.source b.target ∧
      ∀ c ∈ t.bridges, ¬ t.wiring.Reachable c.reader b.target := by
  have hwriter : (Topology.wiring (t ++ [.queued b])).Reachable b.source b.writer :=
    (adj_queued t hf.source_ne_writer (by simp [Connection.edges])).reachable
  have hreader : (Topology.wiring (t ++ [.queued b])).Reachable b.reader b.target :=
    (adj_queued t hf.target_ne_reader.symm (by simp [Connection.edges])).reachable
  have hsource := And.intro hf.source_ne_writer hf.source_ne_reader
  have htarget := And.intro hf.target_ne_writer hf.target_ne_reader
  constructor
  · intro hl'
    constructor
    · intro hr
      have hr' := (hf.reachable_queued h hsource htarget).2 hr
      exact hl'.apart b (by simp) (hwriter.symm.trans (hr'.trans hreader.symm))
    · intro c hc hr
      have hr' := (hf.reachable_queued h (hf.old_ne h hc).2 htarget).2 hr
      have hcb : c = b := hl'.single c (by simp [hc]) b (by simp) (hr'.trans hreader.symm)
      exact (hf.old_ne h hc).2.2 (congrArg Bridge.reader hcb)
  · intro hfree
    have hold (c : Bridge) (hc : c ∈ t.bridges) :
        ¬ (Topology.wiring (t ++ [.queued b])).Reachable c.reader b.reader := by
      intro hr
      exact hfree.2 c hc ((hf.reachable_queued h (hf.old_ne h hc).2 htarget).1 (hr.trans hreader))
    constructor
    case apart =>
      intro c hc hr
      rw [Topology.bridges_queued, List.mem_append, List.mem_singleton] at hc
      rcases hc with hc | hc
      · exact hl.apart c hc ((hf.reachable_queued h (hf.old_ne h hc).1 (hf.old_ne h hc).2).1 hr)
      · subst hc
        exact hfree.1 ((hf.reachable_queued h hsource htarget).1
          (hwriter.trans (hr.trans hreader)))
    case single =>
      intro c hc d hd hr
      rw [Topology.bridges_queued, List.mem_append, List.mem_singleton] at hc hd
      rcases hc with hc | hc <;> rcases hd with hd | hd
      · exact hl.single c hc d hd
          ((hf.reachable_queued h (hf.old_ne h hc).2 (hf.old_ne h hd).2).1 hr)
      · exact absurd (hd ▸ hr) (hold c hc)
      · exact absurd (hc ▸ hr.symm) (hold d hd)
      · exact hc.trans hd.symm

/-- A queued connection may be made exactly if it keeps the laws. -/
theorem Represents.mayBridge_iff_lawful (h : p.Represents t) (hl : t.Lawful) (hf : p.Fresh b) :
    p.MayBridge b.source b.target ↔ Topology.Lawful (t ++ [.queued b]) := by
  rw [hf.lawful_queued_iff h hl]
  constructor
  · intro hmay
    constructor
    · intro hr
      obtain ⟨s, hs⟩ := h.tracks.mem_support.1
        (mem_support_of_reachable hf.source_ne_target.symm hr.symm)
      exact (hmay s hs).1 (h.tracks.of_reachable hs hr.symm)
    · intro c hc hr
      obtain ⟨-, s, -, hreader, -⟩ := h.placed c hc
      have hfree := (hmay s (h.tracks.of_reachable hreader hr)).2
      rw [h.inbound_reader hc hreader] at hfree
      cases hfree
  · intro hfree s hs
    constructor
    · intro hsource
      exact hfree.1 ((h.tracks.eq_iff hsource hs).1 rfl)
    · rw [Option.eq_none_iff_forall_ne_some]
      intro queue hqueue
      obtain ⟨c, hc, -, hreader⟩ := h.inbound.1 hqueue
      rw [h.wellFormed.find_of hs] at hreader
      exact hfree.2 c hc ((h.tracks.eq_iff hreader hs).1 rfl)

/-- Where the queue leads in the partition with its writer and its reader. -/
theorem Represents.exists_bridged (h : p.Represents t) (hf : p.Fresh b) :
    ∃ producer consumer, Bridged producer consumer b.queue
        ((p.join b.source b.writer).join b.reader b.target) (p.bridge b) ∧
      (((p.join b.source b.writer).join b.reader b.target).of b.source = some producer ∧
        ((p.join b.source b.writer).join b.reader b.target).of b.writer = some producer) ∧
      ((p.join b.source b.writer).join b.reader b.target).of b.reader = some consumer ∧
        ((p.join b.source b.writer).join b.reader b.target).of b.target = some consumer := by
  have hp := h.join_reader hf
  unfold Partition.bridge
  set q := (p.join b.source b.writer).join b.reader b.target
  have htracks : q.Tracks (Topology.wiring (t ++ [.queued b])) :=
    Topology.wiring_queued t b ▸ hp.tracks
  have hwriter := adj_queued t hf.source_ne_writer (c := b) (by simp [Connection.edges])
  have hreader := adj_queued t hf.target_ne_reader.symm (c := b) (by simp [Connection.edges])
  obtain ⟨producer, hproducer⟩ := htracks.mem_support.1 ⟨_, hwriter⟩
  obtain ⟨consumer, hconsumer⟩ := htracks.mem_support.1 ⟨_, hreader⟩
  have htarget : q.of b.target = some consumer :=
    htracks.of_reachable hconsumer hreader.reachable
  refine ⟨producer, consumer, ?_, ⟨hproducer, htracks.of_reachable hproducer hwriter.reachable⟩,
    hconsumer, htarget⟩
  simp only [hproducer, htarget]
  exact hp.wellFormed.bridge (hp.wellFormed.of_survives hproducer)
    (hp.wellFormed.of_survives htarget) (hp.wellFormed.of_lt htarget)

/-- A new queue that keeps the laws keeps the representation. -/
theorem Represents.bridge (h : p.Represents t) (hf : p.Fresh b)
    (hl : Topology.Lawful (t ++ [.queued b])) : (p.bridge b).Represents (t ++ [.queued b]) := by
  have hp := h.join_reader hf
  obtain ⟨producer, consumer, hadd, ⟨hsource, hwriter⟩, hreader, htarget⟩ := h.exists_bridged hf
  have htracks := Topology.wiring_queued t b ▸ hp.tracks
  have hbridges : Topology.bridges (t ++ [.direct b.source b.writer, .direct b.reader b.target]) =
      t.bridges := by
    simp [Topology.bridges, Connection.bridge?]
  constructor
  case wellFormed => exact hadd.wellFormed
  case tracks => exact htracks.congr hadd.of
  case placed =>
    intro c hc
    simp only [hadd.of]
    rw [Topology.bridges_queued, List.mem_append, List.mem_singleton] at hc
    rcases hc with hc | hc
    · exact hp.placed c (hbridges ▸ hc)
    · rw [hc]
      exact ⟨producer, consumer, ⟨hsource, hwriter⟩, hreader, htarget⟩
  case feeds =>
    intro x y
    rw [hadd.feeds, hp.feeds, hbridges]
    simp only [hadd.of, Topology.bridges_queued, List.mem_append, List.mem_singleton, or_and_right,
      exists_or, exists_eq_left, hwriter, hreader, Option.some_inj]
  case inbound =>
    intro s queue
    rw [hadd.inbound, hadd.find]
    simp only [hadd.of, Topology.bridges_queued, List.mem_append, List.mem_singleton, or_and_right,
      exists_or, exists_eq_left, hreader, Option.some_inj]
    split
    · next hs =>
      -- No other queue feeds the consumer, or the topology would not be lawful.
      rw [hs, Option.some_inj, or_iff_right]
      · exact (and_iff_left rfl).symm
      · intro hold
        obtain ⟨c, hc, -, hs⟩ := hold
        have hcb := hl.single c (by simp [hc]) b (by simp) ((htracks.eq_iff hs hreader).1 rfl)
        exact (hf.old_ne h hc).2.2 (congrArg Bridge.reader hcb)
    · next hs =>
      rw [hp.inbound, hbridges, or_iff_left]
      exact fun hnew ↦ hs hnew.2.symm

end Bridge

/-- Whether the rules let a connection through. -/
def Allows (p : Partition β) : Connection → Prop
  | .direct source target => source ≠ target ∧ p.MayJoin source target
  | .queued b => p.Fresh b ∧ p.MayBridge b.source b.target

def extend (p : Partition β) : Connection → Partition β
  | .direct source target => p.join source target
  | .queued b => p.bridge b

theorem Represents.extend {c : Connection} (h : p.Represents t) (hl : t.Lawful) (hc : p.Allows c) :
    (p.extend c).Represents (t ++ [c]) ∧ Topology.Lawful (t ++ [c]) := by
  cases c with
  | direct source target =>
    exact ⟨h.join hc.1 hc.2, (h.mayJoin_iff_lawful hl).1 hc.2⟩
  | queued b =>
    have hlawful := (h.mayBridge_iff_lawful hl hc.1).1 hc.2
    exact ⟨h.bridge hc.1 hlawful, hlawful⟩

end Partition

end SignalFlow
