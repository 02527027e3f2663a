import SignalFlow.Proofs.Partition.Division

/-!
# Putting two nodes into one subgraph

Joining two nodes keeps a partition well formed. What it does to the division is a renaming of
survivors: the subgraphs of the two nodes, if they have any, become one, and all other
subgraphs stay. Membership, the survivors of old identifiers and the queues that feed subgraphs
follow that renaming. A queue is lost only if both subgraphs are fed by one.
-/

namespace SignalFlow.Partition

variable {β : Type} {p q r : Partition β}

/-- A partition in which every subgraph has gone where a function says. -/
structure Renames (rename : SubgraphId → SubgraphId) (p q : Partition β) : Prop where
  of : ∀ {node s}, p.of node = some s → q.of node = some (rename s)
  find : ∀ s, q.find s = rename (p.find s)
  inbound : ∀ {s queue}, q.inbound s = some queue ↔
    ∃ t, p.inbound t = some queue ∧ rename (p.find t) = q.find s
  links : q.links = p.links

namespace Renames

theorem trans {f g : SubgraphId → SubgraphId} (hpq : Renames f p q) (hqr : Renames g q r) :
    Renames (g ∘ f) p r where
  of h := hqr.of (hpq.of h)
  find s := by rw [hqr.find, hpq.find, Function.comp]
  inbound {s queue} := by
    rw [hqr.inbound]
    constructor
    · rintro ⟨t, ht, hs⟩
      obtain ⟨u, hu, hut⟩ := hpq.inbound.1 ht
      exact ⟨u, hu, by rw [← hs, ← hut, Function.comp]⟩
    · rintro ⟨u, hu, hus⟩
      exact ⟨u, hpq.inbound.2 ⟨u, hu, (hpq.find u).symm⟩, by rw [← hus, hpq.find, Function.comp]⟩
  links := hqr.links.trans hpq.links

theorem of_grows (h : p.Grows q) (hp : p.Forest)
    (hof : ∀ {node s}, p.of node = some s → q.of node = some s) : Renames id p q where
  of := hof
  find s := h.find_eq hp s
  inbound {s queue} := by
    rw [h.inbound_eq hp, h.find_eq hp]
    constructor
    · intro hs
      exact ⟨s, hs, rfl⟩
    · rintro ⟨t, ht, hts⟩
      rw [← inbound_congr hts, ht]
  links := h.links

end Renames

theorem grows_create (p : Partition β) : p.Grows p.create.2 where
  length_le := by simp [create]
  parent i := by rw [entry_create]
  inbound i := by rw [entry_create]
  links := rfl

section Assign

variable {node : NodeId} {s : SubgraphId}

theorem grows_assign (p : Partition β) (node : NodeId) (s : SubgraphId) :
    p.Grows (p.assign node s) where
  length_le := (length_modify _ _ _).ge
  parent i := by rw [assign, entry_modify]; split <;> rfl
  inbound i := by rw [assign, entry_modify]; split <;> rfl
  links := rfl

theorem nodes_assign (hs : p.Survives s.index) (hlt : s.index < p.entries.length) (i : Nat) :
    ((p.assign node s).entry i).nodes =
      if i = s.index then (p.entry i).nodes ++ [node] else (p.entry i).nodes := by
  rw [assign, entry_modify, root_of_survives hs]
  by_cases hi : i = s.index
  · subst hi
    rw [if_pos rfl, if_pos ⟨rfl, hlt⟩]
    rfl
  · rw [if_neg hi, if_neg fun h ↦ hi h.1.symm]
    rfl

theorem membership_assign (hs : p.Survives s.index) (n : NodeId) :
    (p.assign node s).membership n = if n = node then some s.index else p.membership n := by
  simp only [assign, modify, place, root_of_survives hs, List.mem_singleton]

theorem WellFormed.assign (hp : p.WellFormed) (hnode : p.of node = none)
    (hs : p.Survives s.index) (hlt : s.index < p.entries.length) :
    (p.assign node s).WellFormed where
  toForest := hp.toForest.congr (grows_assign p node s).length_le (grows_assign p node s).parent
  membership_survives {n i} hi := by
    rw [(grows_assign p node s).survives_iff]
    rw [membership_assign hs] at hi
    split at hi
    · exact Option.some.inj hi ▸ hs
    · exact hp.membership_survives hi
  mem_nodes {n i} := by
    rw [of_eq_none_iff] at hnode
    rw [nodes_assign hs hlt, membership_assign hs]
    by_cases hi : i = s.index <;> by_cases hn : n = node
    · simp [hi, hn]
    · simp [hi, hn, hp.mem_nodes]
    · simp [hi, hn, hp.mem_nodes, hnode, Ne.symm hi]
    · simp [hi, hn, hp.mem_nodes]
  nodup i := by
    rw [nodes_assign hs hlt]
    split
    · refine List.nodup_append.2 ⟨hp.nodup i, List.nodup_singleton node, ?_⟩
      intro n hn m hm hnm
      rw [List.mem_singleton.1 hm] at hnm
      rw [hp.mem_nodes, hnm, of_eq_none_iff.1 hnode] at hn
      cases hn
    · exact hp.nodup i

theorem of_assign (hp : p.WellFormed) (hs : p.Survives s.index) (n : NodeId) :
    (p.assign node s).of n = if n = node then some s else p.of n := by
  rw [of, membership_assign hs]
  have hroot := hp.root_congr (grows_assign p node s).length_le (grows_assign p node s).parent
  by_cases hn : n = node
  · simp [hn, hroot, root_of_survives hs]
  · simp [hn, hroot, of]

end Assign

section Merge

variable {winner loser : Nat}

theorem sameTopology_merge (p : Partition β) (winner loser : Nat) :
    (((p.place (p.entry loser).nodes winner).modify winner (·.absorb (p.entry loser))).modify
      loser fun e ↦ { e with parent := winner, nodes := [], edges := [], inbound := none }
      ).SameTopology (p.merge winner loser) :=
  .forward _ loser

theorem length_merge (p : Partition β) (winner loser : Nat) :
    (p.merge winner loser).entries.length = p.entries.length := by
  rw [(sameTopology_merge p winner loser).length, length_modify, length_modify]
  rfl

theorem WellFormed.membership_merge (hp : p.WellFormed) (winner loser : Nat) (node : NodeId) :
    (p.merge winner loser).membership node =
      if p.membership node = some loser then some winner else p.membership node := by
  rw [(sameTopology_merge p winner loser).membership]
  simp only [← hp.mem_nodes]
  rfl

variable (hwinner : winner < p.entries.length) (hloser : loser < p.entries.length)
  (hne : winner ≠ loser)

include hwinner hloser hne in
/-- The winner absorbs what the loser had, and the loser keeps a pointer only. -/
theorem quiet_merge (i : Nat) :
    ((p.merge winner loser).entry i).quiet =
      if i = loser then ⟨winner, [], [], none, []⟩
      else if i = winner then ((p.entry winner).absorb (p.entry loser)).quiet
      else (p.entry i).quiet := by
  rw [(sameTopology_merge p winner loser).entry, entry_modify, length_modify, entry_modify]
  by_cases hl : i = loser
  · subst hl
    rw [if_pos ⟨rfl, hloser⟩, if_pos rfl]
    rfl
  · rw [if_neg fun h ↦ hl h.1.symm, if_neg hl]
    by_cases hw : i = winner
    · subst hw
      rw [if_pos ⟨rfl, hwinner⟩, if_pos rfl]
      rfl
    · rw [if_neg fun h ↦ hw h.1.symm, if_neg hw]
      rfl

include hwinner hloser hne

theorem parent_merge (i : Nat) :
    ((p.merge winner loser).entry i).parent = if i = loser then winner else (p.entry i).parent := by
  have h := congrArg Entry.parent (quiet_merge hwinner hloser hne i)
  rw [apply_ite Entry.parent, apply_ite Entry.parent] at h
  refine h.trans (if_congr Iff.rfl rfl ?_)
  by_cases hw : i = winner
  · rw [if_pos hw, hw]
    rfl
  · exact if_neg hw

theorem nodes_merge (i : Nat) :
    ((p.merge winner loser).entry i).nodes =
      if i = loser then [] else
      if i = winner then (p.entry winner).nodes ++ (p.entry loser).nodes
      else (p.entry i).nodes := by
  have h := congrArg Entry.nodes (quiet_merge hwinner hloser hne i)
  rwa [apply_ite Entry.nodes, apply_ite Entry.nodes] at h

theorem inbound_merge (i : Nat) :
    ((p.merge winner loser).entry i).inbound =
      if i = loser then none else
      if i = winner then (p.entry winner).inbound.or (p.entry loser).inbound
      else (p.entry i).inbound := by
  have h := congrArg Entry.inbound (quiet_merge hwinner hloser hne i)
  rwa [apply_ite Entry.inbound, apply_ite Entry.inbound] at h

theorem forest_merge (hp : p.Forest) (hwinner' : p.Survives winner) (hloser' : p.Survives loser) :
    (p.merge winner loser).Forest :=
  hp.hang hwinner' hloser' hwinner hne (length_merge p winner loser)
    (parent_merge hwinner hloser hne)

theorem WellFormed.merge (hp : p.WellFormed) (hwinner' : p.Survives winner)
    (hloser' : p.Survives loser) : (p.merge winner loser).WellFormed where
  toForest := forest_merge hwinner hloser hne hp.toForest hwinner' hloser'
  membership_survives {node i} hi := by
    rw [hp.membership_merge] at hi
    rw [Survives, parent_merge hwinner hloser hne]
    split at hi
    · rw [← Option.some.inj hi, if_neg hne]
      exact hwinner'
    · next hnode =>
      have hil : i ≠ loser := fun h ↦ hnode (h ▸ hi)
      rw [if_neg hil]
      exact hp.membership_survives hi
  mem_nodes {node i} := by
    rw [nodes_merge hwinner hloser hne, hp.membership_merge]
    by_cases hl : i = loser <;> by_cases hw : i = winner <;>
      by_cases hnode : p.membership node = some loser
    · exact absurd (hw.symm.trans hl) hne
    · exact absurd (hw.symm.trans hl) hne
    · simp [hl, hnode, hne]
    · simp [hl, hnode]
    · simp [hw, hnode, hne, hp.mem_nodes]
    · simp [hw, hnode, hne, hp.mem_nodes]
    · simp [hl, hw, hnode, hp.mem_nodes, Ne.symm hl, Ne.symm hw]
    · simp [hl, hw, hnode, hp.mem_nodes]
  nodup i := by
    rw [nodes_merge hwinner hloser hne]
    split
    · exact List.nodup_nil
    · split
      · refine List.nodup_append.2 ⟨hp.nodup winner, hp.nodup loser, ?_⟩
        intro node hn m hm hnm
        rw [hp.mem_nodes] at hn hm
        rw [hnm] at hn
        exact hne (Option.some.inj (hn.symm.trans hm))
      · exact hp.nodup i

/-- The name that a surviving subgraph has after the loser was merged into the winner. -/
def mergedName (winner loser : Nat) (s : SubgraphId) : SubgraphId :=
  if s.index = loser then ⟨winner⟩ else s

theorem find_merge (hp : p.Forest) (hwinner' : p.Survives winner) (hloser' : p.Survives loser)
    (s : SubgraphId) : (p.merge winner loser).find s = mergedName winner loser (p.find s) := by
  have hroot := hp.root_hang hwinner' hloser' hwinner hne (length_merge p winner loser)
    (parent_merge hwinner hloser hne) s.index
  rw [find, hroot, mergedName, find]
  split <;> rfl

/-- The queue that feeds a subgraph fed what was merged into it. -/
theorem entry_merge_inbound_iff (hp : p.WellFormed) (hloser' : p.Survives loser)
    (hfree : (p.entry winner).inbound = none ∨ (p.entry loser).inbound = none)
    {s : SubgraphId} (hs : p.Survives s.index) (hsl : s.index ≠ loser) {queue : QueueId} :
    ((p.merge winner loser).entry s.index).inbound = some queue ↔
      ∃ t, p.inbound t = some queue ∧ mergedName winner loser (p.find t) = s := by
  rw [inbound_merge hwinner hloser hne, if_neg hsl]
  constructor
  · intro h
    have hself (h : (p.entry s.index).inbound = some queue) :
        ∃ t, p.inbound t = some queue ∧ mergedName winner loser (p.find t) = s :=
      ⟨s, by rwa [inbound_of_survives hs], by rw [find_of_survives hs, mergedName, if_neg hsl]⟩
    by_cases hsw : s.index = winner
    · rw [if_pos hsw, Option.or_eq_some_iff] at h
      rcases h with h | ⟨-, h⟩
      · exact hself (hsw ▸ h)
      · refine ⟨⟨loser⟩, by rwa [inbound_of_survives hloser'], ?_⟩
        rw [find_of_survives hloser', mergedName, if_pos rfl, ← hsw]
    · rw [if_neg hsw] at h
      exact hself h
  · intro h
    obtain ⟨t, ht, hts⟩ := h
    obtain ⟨y, hy⟩ : ∃ y, p.find t = y := ⟨_, rfl⟩
    have hy' : p.Survives y.index := hy ▸ hp.survives_root t.index
    rw [← inbound_congr (find_of_survives hy' |>.trans hy.symm), inbound_of_survives hy'] at ht
    rw [hy, mergedName] at hts
    by_cases hyl : y.index = loser
    · rw [if_pos hyl] at hts
      have hnone : (p.entry winner).inbound = none := hfree.resolve_right (by simp [← hyl, ht])
      rw [← hts, if_pos rfl, hnone, ← hyl, ht]
      rfl
    · rw [if_neg hyl] at hts
      subst hts
      split
      · next hyw => rw [← hyw, ht, Option.some_or]
      · exact ht

/-- A merge loses no queue if one of the two subgraphs is not fed. -/
theorem renames_merge (hp : p.WellFormed) (hwinner' : p.Survives winner)
    (hloser' : p.Survives loser)
    (hfree : (p.entry winner).inbound = none ∨ (p.entry loser).inbound = none) :
    Renames (mergedName winner loser) p (p.merge winner loser) where
  of {node s} hs := by
    have hq := hp.merge hwinner hloser hne hwinner' hloser'
    have hmem := hp.of_eq_some_iff.1 hs
    rw [hq.of_eq_some_iff, hp.membership_merge, hmem]
    by_cases h : s.index = loser
    · simp [h, mergedName]
    · simp [h, mergedName]
  find := find_merge hwinner hloser hne hp.toForest hwinner' hloser'
  inbound {s queue} := by
    have hq := hp.merge hwinner hloser hne hwinner' hloser'
    obtain ⟨x, hx⟩ : ∃ x, (p.merge winner loser).find s = x := ⟨_, rfl⟩
    have hsurvives : (p.merge winner loser).Survives x.index := hx ▸ hq.survives_root s.index
    rw [← inbound_congr (find_of_survives hsurvives |>.trans hx.symm),
      inbound_of_survives hsurvives, hx]
    rw [Survives, parent_merge hwinner hloser hne] at hsurvives
    have hxl : x.index ≠ loser := fun h ↦ hne (by rw [if_pos h] at hsurvives; omega)
    rw [if_neg hxl] at hsurvives
    exact entry_merge_inbound_iff hwinner hloser hne hp hloser' hfree hsurvives hxl
  links := (sameTopology_merge p winner loser).links

end Merge

/-! ## The join of two nodes -/

/-- Whether a subgraph is that of one of two nodes. -/
def Touches (p : Partition β) (a b : NodeId) (s : SubgraphId) : Prop :=
  p.of a = some s ∨ p.of b = some s

instance (p : Partition β) (a b : NodeId) (s : SubgraphId) : Decidable (p.Touches a b s) :=
  inferInstanceAs (Decidable (_ ∨ _))

theorem WellFormed.find_of_touches (hp : p.WellFormed) {a b : NodeId} {s : SubgraphId}
    (h : p.Touches a b s) : p.find s = s :=
  h.elim hp.find_of hp.find_of

/-- Where a subgraph goes when those of two nodes become one. -/
def fuse (p : Partition β) (a b : NodeId) (into s : SubgraphId) : SubgraphId :=
  if p.Touches a b s then into else s

/-- A partition behind a join of two nodes, which are in one subgraph then: the subgraph of one
of them, or a new one if they were in none. -/
structure Joined (a b : NodeId) (into : SubgraphId) (p q : Partition β) : Prop where
  wellFormed : q.WellFormed
  renames : Renames (p.fuse a b into) p q
  source : q.of a = some into
  target : q.of b = some into
  other : ∀ {node}, p.of node = none → node ≠ a → node ≠ b → q.of node = none
  into_eq : p.Touches a b into ∨ p.of a = none ∧ p.of b = none ∧ ∀ node, p.of node ≠ some into

section Joined

variable {a b : NodeId} {into x y : SubgraphId}

theorem fuse_eq_id (h : ∀ s, p.Touches a b s → s = into) : p.fuse a b into = id := by
  funext s
  rw [fuse, id]
  split
  · next hs => exact (h s hs).symm
  · rfl

theorem fuse_comm (p : Partition β) (a b : NodeId) (into : SubgraphId) :
    p.fuse a b into = p.fuse b a into := by
  funext s
  exact if_congr or_comm rfl rfl

theorem Joined.symm (h : Joined a b into p q) : Joined b a into p q where
  wellFormed := h.wellFormed
  renames := fuse_comm p a b into ▸ h.renames
  source := h.target
  target := h.source
  other hn hb ha := h.other hn ha hb
  into_eq := h.into_eq.imp Or.symm fun ⟨ha, hb, hn⟩ ↦ ⟨hb, ha, hn⟩

theorem Joined.congr (h : Joined a b into p q) (hqr : q.SameDivision r) : Joined a b into p r := by
  have hof (node : NodeId) : r.of node = q.of node := hqr.of_eq h.wellFormed.toForest node
  exact
    { wellFormed := h.wellFormed.congr hqr
      renames := h.renames.trans
        (.of_grows hqr.toGrows h.wellFormed.toForest fun {node _} hs ↦ (hof node).trans hs)
      source := (hof a).trans h.source
      target := (hof b).trans h.target
      other := fun {node} hn ha hb ↦ (hof node).trans (h.other hn ha hb)
      into_eq := h.into_eq }

theorem joined_refl (hp : p.WellFormed) (ha : p.of a = some x) (hb : p.of b = some x) :
    Joined a b x p p where
  wellFormed := hp
  renames := by
    have hid : p.fuse a b x = id := fuse_eq_id fun s hs ↦
      hs.elim (fun h ↦ Option.some.inj (h.symm.trans ha)) fun h ↦ Option.some.inj (h.symm.trans hb)
    exact hid ▸ .of_grows (.refl p) hp.toForest fun hs ↦ hs
  source := ha
  target := hb
  other hn _ _ := hn
  into_eq := .inl (.inl ha)

theorem joined_merge (hp : p.WellFormed) (ha : p.of a = some x) (hb : p.of b = some y)
    (hne : x ≠ y) (hfree : p.inbound x = none ∨ p.inbound y = none) :
    Joined a b x p (p.merge x.index y.index) := by
  have hx := hp.of_survives ha
  have hy := hp.of_survives hb
  have hne' : x.index ≠ y.index := fun h ↦ hne (congrArg SubgraphId.mk h)
  rw [inbound_of_survives hx, inbound_of_survives hy] at hfree
  have hrenames := renames_merge (hp.of_lt ha) (hp.of_lt hb) hne' hp hx hy hfree
  have hfuse : p.fuse a b x = mergedName x.index y.index := by
    funext s
    have hs : p.Touches a b s ↔ s = x ∨ s = y := by
      rw [Touches, ha, hb, Option.some_inj, Option.some_inj, eq_comm, @eq_comm _ y]
    by_cases hsy : s = y
    · rw [fuse, if_pos (hs.2 (.inr hsy)), mergedName, if_pos (congrArg SubgraphId.index hsy)]
    · rw [mergedName, if_neg fun h ↦ hsy (congrArg SubgraphId.mk h), fuse]
      split
      · next h => exact ((hs.1 h).resolve_right hsy).symm
      · rfl
  exact
    { wellFormed := hp.merge (hp.of_lt ha) (hp.of_lt hb) hne' hx hy
      renames := hfuse ▸ hrenames
      source := by rw [hrenames.of ha, mergedName, if_neg hne']
      target := by rw [hrenames.of hb, mergedName, if_pos rfl]
      other := fun {node} hn _ _ ↦ by
        rw [WellFormed.of_eq_none_iff] at hn ⊢
        rw [hp.membership_merge, hn]
        exact if_neg nofun
      into_eq := .inl (.inl ha) }

theorem joined_assign (hp : p.WellFormed) (ha : p.of a = some x) (hb : p.of b = none) :
    Joined a b x p (p.assign b x) := by
  have hx := hp.of_survives ha
  have hof (node : NodeId) : (p.assign b x).of node = if node = b then some x else p.of node :=
    of_assign hp hx node
  have hab : a ≠ b := ne_of_of ha hb
  have hid : p.fuse a b x = id := fuse_eq_id fun s hs ↦
    hs.elim (fun h ↦ Option.some.inj (h.symm.trans ha)) fun h ↦ by rw [hb] at h; cases h
  exact
    { wellFormed := hp.assign hb hx (hp.of_lt ha)
      renames := hid ▸ .of_grows (grows_assign p b x) hp.toForest fun {node s} hs ↦ by
        rwa [hof, if_neg (ne_of_of hs hb)]
      source := by rw [hof, if_neg hab, ha]
      target := by rw [hof, if_pos rfl]
      other := fun {node} hn _ hb ↦ by rw [hof, if_neg hb, hn]
      into_eq := .inl (.inl ha) }

theorem WellFormed.create (hp : p.WellFormed) : p.create.2.WellFormed where
  toForest := hp.toForest.congr (grows_create p).length_le (grows_create p).parent
  membership_survives {node i} hi := by
    rw [Survives, entry_create]
    exact hp.membership_survives hi
  mem_nodes {node i} := by rw [entry_create]; exact hp.mem_nodes
  nodup i := by rw [entry_create]; exact hp.nodup i

theorem of_create (hp : p.WellFormed) (node : NodeId) : p.create.2.of node = p.of node := by
  rw [of, of, funext (hp.root_congr (grows_create p).length_le (grows_create p).parent)]
  rfl

theorem survives_create (p : Partition β) : p.create.2.Survives p.create.1.index := by
  rw [Survives, entry_create]
  exact survives_of_length_le le_rfl

theorem survives_assign {node : NodeId} {i : Nat} (h : p.Survives i) :
    (p.assign node s).Survives i :=
  ((grows_assign p node s).survives_iff i).2 h

/-- The second node of a new subgraph has no subgraph when the first one has it. -/
theorem WellFormed.of_assign_create (hp : p.WellFormed) (hb : p.of b = none) (hab : a ≠ b) :
    (p.create.2.assign a p.create.1).of b = none := by
  rw [of_assign hp.create (survives_create p), if_neg hab.symm, of_create hp, hb]

theorem joined_create (hp : p.WellFormed) (ha : p.of a = none) (hb : p.of b = none)
    (hab : a ≠ b) :
    Joined a b p.create.1 p ((p.create.2.assign a p.create.1).assign b p.create.1) := by
  have hnew := survives_create p
  have hlt : p.create.1.index < p.create.2.entries.length := by simp [Partition.create]
  have hpa := hp.create.assign ((of_create hp a).trans ha) hnew hlt
  have hnew' : (p.create.2.assign a p.create.1).Survives p.create.1.index :=
    survives_assign hnew
  have hlt' : p.create.1.index < (p.create.2.assign a p.create.1).entries.length :=
    hlt.trans_le (grows_assign _ _ _).length_le
  have hb' := hp.of_assign_create hb hab
  have hgrows := ((grows_create p).trans (grows_assign _ a p.create.1)).trans
    (grows_assign _ b p.create.1)
  have hall (node : NodeId) : ((p.create.2.assign a p.create.1).assign b p.create.1).of node =
      if node = b then some p.create.1 else if node = a then some p.create.1 else p.of node := by
    rw [of_assign hpa hnew', of_assign hp.create hnew, of_create hp]
  have hid : p.fuse a b p.create.1 = id := fuse_eq_id fun s hs ↦ by
    simp [Touches, ha, hb] at hs
  exact
    { wellFormed := hpa.assign hb' hnew' hlt'
      renames := hid ▸ .of_grows hgrows hp.toForest fun {node s} hs ↦ by
        rw [hall, if_neg (ne_of_of hs hb), if_neg (ne_of_of hs ha), hs]
      source := by rw [hall, if_neg hab, if_pos rfl]
      target := by rw [hall, if_pos rfl]
      other := fun {node} hn ha hb ↦ by rw [hall, if_neg hb, if_neg ha, hn]
      into_eq := .inr ⟨ha, hb, fun node h ↦ (hp.of_lt h).ne rfl⟩ }

/-- The join of two different nodes, which loses no queue if only one of their subgraphs is
fed. -/
theorem WellFormed.join (hp : p.WellFormed) (hab : a ≠ b)
    (hfree : ∀ s t, p.of a = some s → p.of b = some t → s ≠ t →
      p.inbound s = none ∨ p.inbound t = none) :
    ∃ into, Joined a b into p (p.join a b) := by
  have hedge {q : Partition β} {s : SubgraphId} (h : Joined a b s p q) (t : SubgraphId) :
      Joined a b s p (q.addEdge t (a, b)) :=
    h.congr (.modify q _ (fun _ ↦ rfl) (fun _ ↦ rfl) fun _ ↦ rfl)
  unfold Partition.join
  rcases ha : p.of a with _ | x <;> rcases hb : p.of b with _ | y
  · exact ⟨_, hedge (joined_create hp ha hb hab) _⟩
  · exact ⟨_, hedge (joined_assign hp hb ha).symm _⟩
  · exact ⟨_, hedge (joined_assign hp ha hb) _⟩
  · simp only [union]
    rw [root_of_survives (hp.of_survives ha), root_of_survives (hp.of_survives hb)]
    by_cases hxy : x = y
    · rw [if_pos (congrArg SubgraphId.index hxy)]
      exact ⟨_, hedge (joined_refl hp ha (hxy ▸ hb)) _⟩
    · have hfree' := hfree x y ha hb hxy
      rw [if_neg fun h ↦ hxy (congrArg SubgraphId.mk h)]
      split
      · exact ⟨_, hedge (joined_merge hp ha hb hxy hfree') _⟩
      · exact ⟨_, hedge (joined_merge hp hb ha (Ne.symm hxy) hfree'.symm).symm _⟩

end Joined

end SignalFlow.Partition
