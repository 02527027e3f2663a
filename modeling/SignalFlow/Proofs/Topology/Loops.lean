import Mathlib.Data.Fintype.Card
import Mathlib.Logic.Relation
import SignalFlow.Proofs.Topology.Representation

/-!
# Loops of queues

A loop of queues is a subgraph that feeds itself through others. A direct connection identifies
the subgraphs of its ends, which closes a loop exactly if a chain of queues leads from one to the
other; a queue closes one exactly if a chain leads from its target back to its source. A subgraph
runs by a clock if queues followed backwards lead to a subgraph that is not fed. Without loops
every subgraph does.
-/

namespace SignalFlow

open Relation

section Acyclic

variable {α β : Type} {r : α → α → Prop} {f : α → β} {touched : α → Prop} {a b x y : α}

/-- A way in the image of a relation comes from one way, or from two that the identification of
touched elements puts together. -/
theorem transGen_map_cases (hf : ∀ s t, f s = f t → s = t ∨ touched s ∧ touched t)
    (hchain : ∀ s t, touched s → touched t → ¬ TransGen r s t) {x y : β}
    (h : TransGen (Relation.Map r f f) x y) :
    ∃ s t, f s = x ∧ f t = y ∧ (TransGen r s t ∨
      ∃ u v, touched u ∧ touched v ∧ TransGen r s u ∧ TransGen r v t) := by
  induction h with
  | single h =>
    obtain ⟨s, t, hst, hs, ht⟩ := h
    exact ⟨s, t, hs, ht, .inl (.single hst)⟩
  | tail _ hstep ih =>
    obtain ⟨u, v, huv, hu, hv⟩ := hstep
    obtain ⟨s, t, hs, ht, hway⟩ := ih
    -- The step leaves from where the way arrived, or from another element of the same image.
    rcases hf t u (ht.trans hu.symm) with htu | htu
    · subst htu
      refine ⟨s, v, hs, hv, hway.imp (·.tail huv) ?_⟩
      intro hjump
      obtain ⟨w, w', hw, hw', hsw, hwt⟩ := hjump
      exact ⟨w, w', hw, hw', hsw, hwt.tail huv⟩
    · refine ⟨s, v, hs, hv, .inr ?_⟩
      rcases hway with hway | ⟨w, w', -, hw', -, hwt⟩
      · exact ⟨t, u, htu.1, htu.2, hway, .single huv⟩
      · exact absurd hwt (hchain w' t hw' htu.1)

/-- Identifying the touched elements closes a cycle exactly if a way leads from one of them to
another. -/
theorem acyclic_map_iff (htouched : ∀ s t, touched s → touched t → f s = f t)
    (hf : ∀ s t, f s = f t → s = t ∨ touched s ∧ touched t) :
    (∀ x, ¬ TransGen (Relation.Map r f f) x x) ↔
      (∀ x, ¬ TransGen r x x) ∧ ∀ s t, touched s → touched t → ¬ TransGen r s t := by
  have hlift {s t : α} (h : TransGen r s t) : TransGen (Relation.Map r f f) (f s) (f t) :=
    TransGen.lift f (fun s t hst ↦ ⟨s, t, hst, rfl, rfl⟩) s t h
  constructor
  · intro h
    constructor
    · intro x hx
      exact h (f x) (hlift hx)
    · intro s t hs ht hst
      have hloop := hlift hst
      rw [htouched s t hs ht] at hloop
      exact h (f t) hloop
  · intro ⟨hacyclic, hchain⟩ x hx
    obtain ⟨s, t, hs, ht, hway⟩ := transGen_map_cases hf hchain hx
    rcases hf s t (hs.trans ht.symm) with hst | hst <;>
      rcases hway with hway | ⟨u, v, hu, hv, hsu, hvt⟩
    · exact hacyclic s (hst ▸ hway)
    · exact hchain v u hv hu ((hst ▸ hvt).trans hsu)
    · exact hchain s t hst.1 hst.2 hway
    · exact hchain s u hst.1 hu hsu

/-- A way that may use one more step uses it or not. -/
theorem transGen_or_step (h : TransGen (fun s t ↦ r s t ∨ a = s ∧ b = t) x y) :
    TransGen r x y ∨ ReflTransGen r x a ∧ ReflTransGen r b y := by
  induction h with
  | single h =>
    rcases h with h | ⟨ha, hb⟩
    · exact .inl (.single h)
    · exact .inr ⟨ha ▸ .refl, hb ▸ .refl⟩
  | tail _ hstep ih =>
    rcases hstep with hstep | ⟨ha, hb⟩
    · rcases ih with hway | ⟨hxa, hby⟩
      · exact .inl (hway.tail hstep)
      · exact .inr ⟨hxa, hby.tail hstep⟩
    · refine .inr ⟨?_, hb ▸ .refl⟩
      rcases ih with hway | ⟨hxa, -⟩
      · exact ha ▸ hway.to_reflTransGen
      · exact hxa

/-- One more step closes a cycle exactly if a way leads back. -/
theorem acyclic_or_step_iff : (∀ x, ¬ TransGen (fun s t ↦ r s t ∨ a = s ∧ b = t) x x) ↔
    (∀ x, ¬ TransGen r x x) ∧ ¬ ReflTransGen r b a := by
  have hmono {s t : α} (h : ReflTransGen r s t) :
      ReflTransGen (fun s t ↦ r s t ∨ a = s ∧ b = t) s t :=
    ReflTransGen.mono (fun _ _ ↦ .inl) s t h
  constructor
  · intro h
    constructor
    · intro x hx
      exact h x (TransGen.mono (fun _ _ ↦ .inl) x x hx)
    · intro hba
      exact h a (.head' (.inr ⟨rfl, rfl⟩) (hmono hba))
  · intro ⟨hacyclic, hback⟩ x hx
    rcases transGen_or_step hx with hway | ⟨hxa, hbx⟩
    · exact hacyclic x hway
    · exact hback (hbx.trans hxa)

end Acyclic

namespace Partition

variable {β : Type} {p q : Partition β} {t : Topology} {a b : NodeId} {s u v : SubgraphId}

/-- No subgraph feeds itself through a chain of queues. -/
def LoopFree (p : Partition β) : Prop :=
  ∀ s, ¬ TransGen p.Feeds s s

/-- No chain of queues leads from the subgraph of one node to that of another. -/
def Unchained (p : Partition β) (a b : NodeId) : Prop :=
  ∀ s t, p.of a = some s → p.of b = some t → ¬ TransGen p.Feeds s t

/-- No chain leads from or to a node that is in no subgraph. -/
theorem unchained_of_none (h : p.of a = none ∨ p.of b = none) : p.Unchained a b := by
  intro s t hs ht
  rw [hs, ht] at h
  exact h.elim nofun nofun

theorem loopFree_empty : (empty : Partition β).LoopFree := by
  intro s h
  obtain ⟨t, ⟨link, hlink, -⟩, -⟩ := TransGen.head'_iff.1 h
  exact absurd hlink List.not_mem_nil

theorem feeds_congr_loopFree (h : ∀ s t, q.Feeds s t ↔ p.Feeds s t) :
    q.LoopFree ↔ p.LoopFree := by
  have hfeeds : q.Feeds = p.Feeds := funext fun s ↦ funext fun t ↦ propext (h s t)
  rw [LoopFree, LoopFree, hfeeds]

theorem Joined.feeds {into : SubgraphId} (h : Joined a b into p q) :
    q.Feeds = Relation.Map p.Feeds (p.fuse a b into) (p.fuse a b into) := by
  funext x y
  exact propext h.renames.feeds

/-- Only the subgraphs of the joined nodes become one. -/
theorem Joined.eq_or_touches {into : SubgraphId} (h : Joined a b into p q)
    (hst : p.fuse a b into s = p.fuse a b into u) : s = u ∨ p.Touches a b s ∧ p.Touches a b u := by
  rcases h.into_eq with hinto | ⟨ha, hb, -⟩
  · unfold fuse at hst
    split at hst <;> split at hst
    · next hs hu => exact .inr ⟨hs, hu⟩
    · next hs hu => exact absurd (hst ▸ hinto) hu
    · next hs hu => exact absurd (hst ▸ hinto) hs
    · exact .inl hst
  · have hnot (x : SubgraphId) : ¬ p.Touches a b x := by simp [Touches, ha, hb]
    rw [fuse, fuse, if_neg (hnot s), if_neg (hnot u)] at hst
    exact .inl hst

/-- A join keeps queues free of loops exactly if it puts no ends of a chain together. -/
theorem Joined.loopFree_iff {into : SubgraphId} (h : Joined a b into p q) :
    q.LoopFree ↔ p.LoopFree ∧ p.Unchained a b ∧ p.Unchained b a := by
  have htouches (s u : SubgraphId) (hs : p.Touches a b s) (hu : p.Touches a b u) :
      p.fuse a b into s = p.fuse a b into u := by
    rw [fuse, fuse, if_pos hs, if_pos hu]
  rw [LoopFree, h.feeds, acyclic_map_iff htouches fun s u ↦ h.eq_or_touches]
  refine and_congr_right fun hfree ↦ ?_
  constructor
  · intro hchain
    exact ⟨fun s u hs hu ↦ hchain s u (.inl hs) (.inr hu),
      fun s u hs hu ↦ hchain s u (.inr hs) (.inl hu)⟩
  · intro hunchained s u hs hu
    have hsame {n : NodeId} (hs : p.of n = some s) (hu : p.of n = some u) :
        ¬ TransGen p.Feeds s u := Option.some.inj (hs.symm.trans hu) ▸ hfree s
    rcases hs with hs | hs <;> rcases hu with hu | hu
    · exact hsame hs hu
    · exact hunchained.1 s u hs hu
    · exact hunchained.2 s u hs hu
    · exact hsame hs hu

/-- Joining a node that is in no subgraph moves no other node. -/
theorem Joined.renames_id {into : SubgraphId} (h : Joined a b into p q)
    (hab : p.of a = none ∨ p.of b = none) : Renames id p q := by
  have hid : p.fuse a b into = id := by
    refine fuse_eq_id fun s hs ↦ ?_
    rcases h.into_eq with hinto | ⟨ha, hb, -⟩
    · have hone {n : NodeId} (hs : p.of n = some s) (hinto : p.of n = some into) : s = into :=
        Option.some.inj (hs.symm.trans hinto)
      rcases hab with hab | hab <;> simp only [Touches, hab, reduceCtorEq, false_or, or_false]
        at hs hinto
      · exact hone hs hinto
      · exact hone hs hinto
    · simp [Touches, ha, hb] at hs
  exact hid ▸ h.renames

section Bridge

variable {c : Bridge}

/-- The writer and the reader of a bridge move no other node. -/
theorem Represents.renames_join_reader (h : p.Represents t) (hf : p.Fresh c) :
    Renames id p ((p.join c.source c.writer).join c.reader c.target) := by
  obtain ⟨_, hwriter⟩ := (mayJoin_of_none (.inr hf.of_writer)).exists_joined h.wellFormed
    hf.source_ne_writer
  obtain ⟨_, hreader⟩ := (mayJoin_of_none (.inl (hf.of_reader_join h))).exists_joined
    (h.join_writer hf).wellFormed hf.target_ne_reader.symm
  exact (hwriter.renames_id (.inr hf.of_writer)).trans
    (hreader.renames_id (.inl (hf.of_reader_join h)))

/-- An old node that shares a subgraph with another one shared it before. -/
theorem Fresh.of_eq_of_joined (hf : p.Fresh c) (h : p.Represents t) {m n : NodeId}
    (hm : p.of m = some s) (hn : n ≠ c.writer ∧ n ≠ c.reader)
    (hn' : ((p.join c.source c.writer).join c.reader c.target).of n = some s) :
    p.of n = some s := by
  have hm' := (h.renames_join_reader hf).of hm
  have hmn := ((h.join_reader hf).tracks.eq_iff hm' hn').1 rfl
  have hold := And.intro (ne_of_of hm hf.of_writer) (ne_of_of hm hf.of_reader)
  rw [← Topology.wiring_queued, hf.reachable_queued h hold hn] at hmn
  exact h.tracks.of_reachable hm hmn

/-- A queue keeps queues free of loops exactly if no chain leads from its target to its
source. -/
theorem Represents.bridge_loopFree_iff (h : p.Represents t) (hf : p.Fresh c)
    (hl : Topology.Lawful (t ++ [.queued c])) :
    (p.bridge c).LoopFree ↔ p.LoopFree ∧ p.Unchained c.target c.source := by
  obtain ⟨producer, consumer, hadd, ⟨hsource, hwriter⟩, hreader, htarget⟩ := h.exists_bridged hf
  have hrenames := h.renames_join_reader hf
  have hfeeds : (p.bridge c).Feeds = fun s u ↦ p.Feeds s u ∨ producer = s ∧ consumer = u := by
    funext s u
    rw [hadd.feeds, hrenames.feeds]
    simp
  have hne : consumer ≠ producer := by
    intro heq
    have htracks := Topology.wiring_queued t c ▸ (h.join_reader hf).tracks
    exact hl.apart c (by simp) ((htracks.eq_iff hwriter hreader).1 heq.symm)
  rw [LoopFree, hfeeds, acyclic_or_step_iff]
  refine and_congr_right fun _ ↦ ?_
  constructor
  · intro hback s u hs hu hchain
    have hs' : s = consumer := Option.some.inj ((hrenames.of hs).symm.trans htarget)
    have hu' : u = producer := Option.some.inj ((hrenames.of hu).symm.trans hsource)
    exact hback (hs' ▸ hu' ▸ hchain.to_reflTransGen)
  · intro hunchained hback
    rcases reflTransGen_iff_eq_or_transGen.1 hback with heq | hchain
    · exact hne heq.symm
    · obtain ⟨_, hfirst, -⟩ := TransGen.head'_iff.1 hchain
      obtain ⟨_, -, hlast⟩ := TransGen.tail'_iff.1 hchain
      obtain ⟨_, -, hd, -⟩ := h.feeds.1 hfirst
      obtain ⟨_, -, -, he⟩ := h.feeds.1 hlast
      have hconsumer := hf.of_eq_of_joined h hd ⟨hf.target_ne_writer, hf.target_ne_reader⟩ htarget
      have hproducer := hf.of_eq_of_joined h he ⟨hf.source_ne_writer, hf.source_ne_reader⟩ hsource
      exact hunchained _ _ hconsumer hproducer hchain

end Bridge

/-- Whether a connection closes no loop of queues. -/
def ClosesNoLoop (p : Partition β) : Connection → Prop
  | .direct source target => p.Unchained source target ∧ p.Unchained target source
  | .queued b => p.Unchained b.target b.source

/-- The partition with a connection that the rules let through is free of loops exactly if the
one before is and the connection closes none. -/
theorem Represents.extend_loopFree_iff (h : p.Represents t) (hl : t.Lawful) {c : Connection}
    (hc : p.Allows c) : (p.extend c).LoopFree ↔ p.LoopFree ∧ p.ClosesNoLoop c := by
  cases c with
  | direct source target =>
    obtain ⟨_, hj⟩ := hc.2.exists_joined h.wellFormed hc.1
    exact hj.loopFree_iff
  | queued b =>
    exact h.bridge_loopFree_iff hc.1 ((h.mayBridge_iff_lawful hl hc.1).1 hc.2)

/-! ## Clocks -/

/-- Queues followed backwards from a subgraph lead to one that is not fed. -/
def Clocked (p : Partition β) (s : SubgraphId) : Prop :=
  ∃ u, p.inbound u = none ∧ ReflTransGen p.Feeds u s

/-- A set of subgraphs that are all fed, and only by each other. -/
structure SelfFed (p : Partition β) (within : Set SubgraphId) : Prop where
  nonempty : within.Nonempty
  mem_roots : ∀ s ∈ within, s ∈ p.roots
  fed : ∀ s ∈ within, p.inbound s ≠ none
  feeds : ∀ s ∈ within, ∀ u, p.Feeds u s → u ∈ within

/-- If all subgraphs that feed others are fed, the fed ones run by no clock. -/
theorem not_clocked_of_fed (hfed : ∀ link ∈ p.links, p.inbound (p.find ⟨link.1⟩) ≠ none)
    (hs : p.inbound s ≠ none) : ¬ p.Clocked s := by
  intro hclock
  obtain ⟨u, hfree, hus⟩ := hclock
  rcases hus.cases_head with heq | ⟨v, ⟨link, hlink, hu, -⟩, -⟩
  · exact hs (heq ▸ hfree)
  · exact hfed link hlink (hu ▸ hfree)

namespace Represents

theorem inbound_of_feeds (h : p.Represents t) (hus : p.Feeds u s) : p.inbound s ≠ none := by
  obtain ⟨b, hb, -, hreader⟩ := h.feeds.1 hus
  rw [h.inbound_reader hb hreader]
  exact nofun

theorem mem_roots_of_feeds (h : p.Represents t) (hus : p.Feeds u s) : u ∈ p.roots := by
  obtain ⟨b, -, hwriter, -⟩ := h.feeds.1 hus
  exact h.wellFormed.mem_roots.2 ⟨_, hwriter⟩

theorem exists_feeds (h : p.Represents t) (hs : s ∈ p.roots) (hfed : p.inbound s ≠ none) :
    ∃ u, p.Feeds u s := by
  obtain ⟨queue, hqueue⟩ := Option.ne_none_iff_exists'.1 hfed
  obtain ⟨node, hnode⟩ := h.wellFormed.mem_roots.1 hs
  obtain ⟨b, hb, -, hreader⟩ := h.inbound.1 hqueue
  obtain ⟨producer, -, ⟨-, hwriter⟩, -⟩ := h.placed b hb
  rw [h.wellFormed.find_of hnode] at hreader
  exact ⟨producer, h.feeds.2 ⟨b, hb, hwriter, hreader⟩⟩

/-- A subgraph is fed by one subgraph only. -/
theorem feeds_unique (h : p.Represents t) (hl : t.Lawful) (hu : p.Feeds u s) (hv : p.Feeds v s) :
    u = v := by
  obtain ⟨b, hb, hbu, hbs⟩ := h.feeds.1 hu
  obtain ⟨c, hc, hcv, hcs⟩ := h.feeds.1 hv
  have hbc : b = c := hl.single b hb c hc ((h.tracks.eq_iff hbs hcs).1 rfl)
  exact Option.some.inj (hbu.symm.trans (hbc ▸ hcv))

/-- Subgraphs without a clock feed each other. -/
theorem selfFed_unclocked (h : p.Represents t) (hs : s ∈ p.roots) (hclock : ¬ p.Clocked s) :
    p.SelfFed {u | u ∈ p.roots ∧ ¬ p.Clocked u} where
  nonempty := ⟨s, hs, hclock⟩
  mem_roots _ hu := hu.1
  fed u hu hfree := hu.2 ⟨u, hfree, .refl⟩
  feeds u hu v hvu := by
    refine ⟨h.mem_roots_of_feeds hvu, fun hv ↦ ?_⟩
    obtain ⟨w, hw, hwv⟩ := hv
    exact hu.2 ⟨w, hw, hwv.tail hvu⟩

/-- A subgraph with a clock is in no set that is fed from within only. -/
theorem Clocked.not_mem_of_selfFed {within : Set SubgraphId} (hself : p.SelfFed within)
    (hclock : p.Clocked s) : s ∉ within := by
  obtain ⟨u, hfree, hus⟩ := hclock
  intro hs
  have hu : u ∈ within := by
    clear hfree
    induction hus using ReflTransGen.head_induction_on with
    | refl => exact hs
    | head hstep _ ih => exact hself.feeds _ ih _ hstep
  exact hself.fed u hu hfree

theorem clocked_iff_not_selfFed (h : p.Represents t) :
    (∀ s ∈ p.roots, p.Clocked s) ↔ ¬ ∃ within, p.SelfFed within := by
  constructor
  · intro hclock hself
    obtain ⟨within, hself⟩ := hself
    obtain ⟨s, hs⟩ := hself.nonempty
    exact Clocked.not_mem_of_selfFed hself (hclock s (hself.mem_roots s hs)) hs
  · intro hself s hs
    by_contra hclock
    exact hself ⟨_, h.selfFed_unclocked hs hclock⟩

/-- A loop of queues is fed from within only. -/
theorem selfFed_of_loop (h : p.Represents t) (hl : t.Lawful) (hs : TransGen p.Feeds s s) :
    p.SelfFed {u | TransGen p.Feeds u u} where
  nonempty := ⟨s, hs⟩
  mem_roots u hu := by
    obtain ⟨_, hstep, -⟩ := TransGen.head'_iff.1 hu
    exact h.mem_roots_of_feeds hstep
  fed u hu := by
    obtain ⟨_, -, hstep⟩ := TransGen.tail'_iff.1 hu
    exact h.inbound_of_feeds hstep
  feeds u hu v hvu := by
    obtain ⟨w, huw, hwu⟩ := TransGen.tail'_iff.1 hu
    rw [h.feeds_unique hl hwu hvu] at huw
    exact .head' hvu huw

/-- Without loops, going backwards along queues ends. -/
theorem clocked_of_loopFree (h : p.Represents t) (hfree : p.LoopFree) (hs : s ∈ p.roots) :
    p.Clocked s := by
  -- There are finitely many subgraphs, so going backwards is well-founded if it never returns.
  let behind (u v : {s // s ∈ p.roots}) : Prop := TransGen p.Feeds u v
  have : IsTrans _ behind := ⟨fun _ _ _ ↦ .trans⟩
  have : Std.Irrefl behind := ⟨fun u ↦ hfree u⟩
  have hwf : WellFounded behind := Finite.wellFounded_of_trans_of_irrefl behind
  suffices hall : ∀ u : {s // s ∈ p.roots}, p.Clocked u from hall ⟨s, hs⟩
  intro u
  induction u using hwf.induction with
  | _ u ih =>
    by_cases hfed : p.inbound u = none
    · exact ⟨u, hfed, .refl⟩
    · obtain ⟨v, hvu⟩ := h.exists_feeds u.2 hfed
      obtain ⟨w, hw, hwv⟩ := ih ⟨v, h.mem_roots_of_feeds hvu⟩ (.single hvu)
      exact ⟨w, hw, hwv.tail hvu⟩

theorem clocked_iff_loopFree (h : p.Represents t) (hl : t.Lawful) :
    (∀ s ∈ p.roots, p.Clocked s) ↔ p.LoopFree := by
  constructor
  · intro hclock s hs
    exact h.clocked_iff_not_selfFed.1 hclock ⟨_, h.selfFed_of_loop hl hs⟩
  · intro hfree s hs
    exact h.clocked_of_loopFree hfree hs

end Represents

end Partition

end SignalFlow
