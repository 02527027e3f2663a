import SignalFlow.Proofs.Partition.Join

/-!
# What entries carry

Besides its nodes an entry carries ordering edges and waiting batches. Both stay with the nodes:
they are where they were until a subgraph is merged into another one, which takes them over, the
edges without duplicates and the batches behind its own.
-/

namespace SignalFlow.Partition

variable {β : Type} {p q : Partition β} {a b : NodeId} {s t into : SubgraphId}

/-- The ways in which two nodes come into one subgraph, before the edge between them is
recorded. -/
inductive Meets (a b : NodeId) (p : Partition β) : SubgraphId → Partition β → Prop
  | already {s : SubgraphId} (ha : p.of a = some s) (hb : p.of b = some s) : Meets a b p s p
  | target {s : SubgraphId} (ha : p.of a = some s) (hb : p.of b = none) :
      Meets a b p s (p.assign b s)
  | source {s : SubgraphId} (ha : p.of a = none) (hb : p.of b = some s) :
      Meets a b p s (p.assign a s)
  | new (ha : p.of a = none) (hb : p.of b = none) :
      Meets a b p p.create.1 ((p.create.2.assign a p.create.1).assign b p.create.1)
  | first {s t : SubgraphId} (ha : p.of a = some s) (hb : p.of b = some t) (hne : s ≠ t) :
      Meets a b p s (p.merge s.index t.index)
  | second {s t : SubgraphId} (ha : p.of a = some s) (hb : p.of b = some t) (hne : s ≠ t) :
      Meets a b p t (p.merge t.index s.index)

theorem WellFormed.exists_meets (hp : p.WellFormed) (a b : NodeId) :
    ∃ into q, Meets a b p into q ∧ p.join a b = q.addEdge into (a, b) := by
  unfold Partition.join
  rcases ha : p.of a with _ | x <;> rcases hb : p.of b with _ | y
  · exact ⟨_, _, .new ha hb, rfl⟩
  · exact ⟨_, _, .source ha hb, rfl⟩
  · exact ⟨_, _, .target ha hb, rfl⟩
  · simp only [union]
    rw [root_of_survives (hp.of_survives ha), root_of_survives (hp.of_survives hb)]
    by_cases hxy : x = y
    · subst hxy
      rw [if_pos rfl]
      exact ⟨_, _, .already ha hb, rfl⟩
    · rw [if_neg fun h ↦ hxy (congrArg SubgraphId.mk h)]
      split
      · exact ⟨_, _, .first ha hb hxy, rfl⟩
      · exact ⟨_, _, .second ha hb hxy, rfl⟩

namespace Meets

theorem wellFormed (h : Meets a b p into q) (hp : p.WellFormed) (hab : a ≠ b) :
    q.WellFormed := by
  cases h with
  | already ha hb => exact hp
  | target ha hb => exact hp.assign hb (hp.of_survives ha) (hp.of_lt ha)
  | source ha hb => exact hp.assign ha (hp.of_survives hb) (hp.of_lt hb)
  | new ha hb => exact (joined_create hp ha hb hab).wellFormed
  | first ha hb hne =>
    exact hp.merge (hp.of_lt ha) (hp.of_lt hb) (fun h ↦ hne (congrArg SubgraphId.mk h))
      (hp.of_survives ha) (hp.of_survives hb)
  | second ha hb hne =>
    exact hp.merge (hp.of_lt hb) (hp.of_lt ha) (fun h ↦ hne (congrArg SubgraphId.mk h).symm)
      (hp.of_survives hb) (hp.of_survives ha)

theorem of_source (h : Meets a b p into q) (hp : p.WellFormed) (hab : a ≠ b) :
    q.of a = some into := by
  have hq := h.wellFormed hp hab
  cases h with
  | already ha hb => exact ha
  | target ha hb => rw [of_assign hp (hp.of_survives ha), if_neg hab, ha]
  | source ha hb => rw [of_assign hp (hp.of_survives hb), if_pos rfl]
  | new ha hb => exact (joined_create hp ha hb hab).source
  | first ha hb hne =>
    rw [hq.of_eq_some_iff, hp.membership_merge, hp.of_eq_some_iff.1 ha, if_neg]
    exact fun h ↦ hne (congrArg SubgraphId.mk (Option.some.inj h))
  | second ha hb hne =>
    rw [hq.of_eq_some_iff, hp.membership_merge, hp.of_eq_some_iff.1 ha, if_pos rfl]

end Meets

section Merge

variable {winner loser : Nat} (hp : p.WellFormed) (hwinner : winner < p.entries.length)
  (hloser : loser < p.entries.length) (hne : winner ≠ loser) (hwinner' : p.Survives winner)
  (hloser' : p.Survives loser)

include hwinner hloser hne in
theorem edges_merge (i : Nat) :
    ((p.merge winner loser).entry i).edges =
      if i = loser then [] else
      if i = winner then (p.entry loser).edges.foldl addUnlessThere (p.entry winner).edges
      else (p.entry i).edges := by
  have h := congrArg Entry.edges (quiet_merge hwinner hloser hne i)
  rwa [apply_ite Entry.edges, apply_ite Entry.edges] at h

include hp hwinner hloser hne hwinner' hloser' in
/-- The batches of the merged entry go behind those of the survivor. -/
theorem pending_merge (i : Nat) :
    ((p.merge winner loser).entry i).pending =
      if i = loser then [] else
      if i = winner then (p.entry winner).pending ++ (p.entry loser).pending
      else (p.entry i).pending := by
  set taken := ((p.place (p.entry loser).nodes winner).modify winner
    (·.absorb (p.entry loser))).modify loser fun e ↦
      { e with parent := winner, nodes := [], edges := [], inbound := none } with htaken
  have hlength : taken.entries.length = p.entries.length := by
    rw [htaken, length_modify, length_modify]
    rfl
  have hparent (j : Nat) :
      (taken.entry j).parent = if j = loser then winner else (p.entry j).parent := by
    rw [← parent_merge hwinner hloser hne]
    exact (congrArg Entry.parent ((sameTopology_merge p winner loser).entry j) :).symm
  have hpending (j : Nat) : (taken.entry j).pending = (p.entry j).pending := by
    rw [htaken, entry_modify, entry_modify]
    split <;> split <;> rfl
  have hroot : taken.root loser = winner := by
    rw [hp.root_hang hwinner' hloser' hwinner hne hlength hparent, root_of_survives hloser',
      if_pos rfl]
  change ((taken.forward loser).entry i).pending = _
  simp only [forward, hroot, if_neg hne, receive]
  rw [entry_modify, entry_modify, length_modify, hlength]
  by_cases hil : i = loser
  · rw [if_pos hil, hil, if_neg fun h ↦ hne h.1, if_pos ⟨rfl, hloser⟩]
  · rw [if_neg hil]
    by_cases hiw : i = winner
    · rw [if_pos hiw, hiw, if_pos ⟨rfl, hwinner⟩, if_neg fun h ↦ hne h.1.symm]
      exact congrArg₂ (· ++ ·) (hpending winner) (hpending loser)
    · rw [if_neg hiw, if_neg fun h ↦ hiw h.1.symm, if_neg fun h ↦ hil h.1.symm, hpending]

end Merge

theorem edges_assign (p : Partition β) (node : NodeId) (s : SubgraphId) (i : Nat) :
    ((p.assign node s).entry i).edges = (p.entry i).edges := by
  rw [assign, entry_modify]
  split <;> rfl

theorem pending_assign (p : Partition β) (node : NodeId) (s : SubgraphId) (i : Nat) :
    ((p.assign node s).entry i).pending = (p.entry i).pending := by
  rw [assign, entry_modify]
  split <;> rfl

theorem pending_addEdge (p : Partition β) (s : SubgraphId) (edge : Edge) (i : Nat) :
    ((p.addEdge s edge).entry i).pending = (p.entry i).pending := by
  rw [addEdge, entry_modify]
  split <;> rfl

/-! ## Ordering edges -/

theorem mem_addUnlessThere {edges : List Edge} {edge e : Edge} :
    e ∈ addUnlessThere edges edge ↔ e ∈ edges ∨ e = edge := by
  unfold addUnlessThere
  split
  · next hmem => simpa using fun h ↦ h ▸ hmem
  · simp

theorem nodup_addUnlessThere {edges : List Edge} (h : edges.Nodup) (edge : Edge) :
    (addUnlessThere edges edge).Nodup := by
  unfold addUnlessThere
  split
  · exact h
  · next hmem =>
    rw [← List.concat_eq_append]
    exact h.concat hmem

theorem mem_foldl_addUnlessThere {edges more : List Edge} {e : Edge} :
    e ∈ more.foldl addUnlessThere edges ↔ e ∈ edges ∨ e ∈ more := by
  induction more generalizing edges with
  | nil => simp
  | cons edge more ih =>
    calc
      e ∈ more.foldl addUnlessThere (addUnlessThere edges edge) ↔
          e ∈ addUnlessThere edges edge ∨ e ∈ more := ih
      _ ↔ (e ∈ edges ∨ e = edge) ∨ e ∈ more := or_congr_left mem_addUnlessThere
      _ ↔ e ∈ edges ∨ e ∈ edge :: more := by rw [List.mem_cons, or_assoc]

theorem nodup_foldl_addUnlessThere {edges more : List Edge} (h : edges.Nodup) :
    (more.foldl addUnlessThere edges).Nodup := by
  induction more generalizing edges with
  | nil => exact h
  | cons edge more ih => exact ih (nodup_addUnlessThere h edge)

/-- The entries hold some edges, each once, in the entry of the node that it leads from. -/
structure Records (p : Partition β) (edges : List Edge) : Prop where
  mem_edges : ∀ {i e}, e ∈ (p.entry i).edges ↔ e ∈ edges ∧ p.membership e.1 = some i
  nodup : ∀ i, (p.entry i).edges.Nodup
  placed : ∀ {e}, e ∈ edges → p.of e.1 ≠ none

theorem records_empty : (empty : Partition β).Records [] where
  mem_edges := by simp [empty, entry, Entry.root]
  nodup i := by simp [empty, entry, Entry.root]
  placed h := absurd h List.not_mem_nil

namespace Records

variable {edges : List Edge}

theorem congr (h : p.Records edges) (hedges : ∀ i, (q.entry i).edges = (p.entry i).edges)
    (hmembership : q.membership = p.membership) : q.Records edges where
  mem_edges := by
    intro i e
    rw [hedges, hmembership]
    exact h.mem_edges
  nodup i := by
    rw [hedges]
    exact h.nodup i
  placed {e} he := by
    rw [Ne, WellFormed.of_eq_none_iff, hmembership, ← WellFormed.of_eq_none_iff]
    exact h.placed he

theorem sameTopology (h : p.Records edges) (hpq : p.SameTopology q) : q.Records edges :=
  h.congr (fun i ↦ (congrArg Entry.edges (hpq.entry i) :)) hpq.membership

theorem assign (h : p.Records edges) (hnode : p.of a = none) (hs : p.Survives s.index) :
    (p.assign a s).Records edges := by
  have hne {e : Edge} (he : e ∈ edges) : e.1 ≠ a := fun hea ↦ h.placed he (hea ▸ hnode)
  constructor
  case mem_edges =>
    intro i e
    rw [edges_assign, h.mem_edges, membership_assign hs]
    refine and_congr_right fun he ↦ ?_
    rw [if_neg (hne he)]
  case nodup =>
    intro i
    rw [edges_assign]
    exact h.nodup i
  case placed =>
    intro e he
    rw [Ne, WellFormed.of_eq_none_iff, membership_assign hs, if_neg (hne he),
      ← WellFormed.of_eq_none_iff]
    exact h.placed he

theorem create (h : p.Records edges) : p.create.2.Records edges :=
  h.congr (fun i ↦ by rw [entry_create]) rfl

/-- The edges of the merged subgraph go where its nodes go. -/
theorem merge (h : p.Records edges) (hp : p.WellFormed) (ha : p.of a = some s)
    (hb : p.of b = some t) (hne : s ≠ t) : (p.merge s.index t.index).Records edges := by
  have hne' : s.index ≠ t.index := fun h ↦ hne (congrArg SubgraphId.mk h)
  have hedges := edges_merge (hp.of_lt ha) (hp.of_lt hb) hne'
  constructor
  case mem_edges =>
    intro i e
    rw [hedges, hp.membership_merge]
    by_cases hit : i = t.index
    · subst hit
      rw [if_pos rfl]
      refine iff_of_false List.not_mem_nil fun hmoved ↦ ?_
      split at hmoved
      · exact hne' (Option.some.inj hmoved.2)
      · next hother => exact hother hmoved.2
    · rw [if_neg hit]
      by_cases his : i = s.index
      · subst his
        rw [if_pos rfl, mem_foldl_addUnlessThere, h.mem_edges, h.mem_edges, ← and_or_left]
        refine and_congr_right fun _ ↦ ?_
        by_cases hmoved : p.membership e.1 = some t.index
        · simp [hmoved]
        · simp [hmoved]
      · rw [if_neg his, h.mem_edges]
        refine and_congr_right fun _ ↦ ?_
        by_cases hmoved : p.membership e.1 = some t.index
        · simp [hmoved, Ne.symm hit, Ne.symm his]
        · simp [hmoved]
  case nodup =>
    intro i
    rw [hedges]
    split
    · exact List.nodup_nil
    · split
      · exact nodup_foldl_addUnlessThere (h.nodup _)
      · exact h.nodup i
  case placed =>
    intro e he
    have hplaced := h.placed he
    rw [Ne, WellFormed.of_eq_none_iff] at hplaced ⊢
    rw [hp.membership_merge]
    split
    · exact Option.some_ne_none _
    · exact hplaced

theorem addEdge (h : p.Records edges) (hp : p.WellFormed) (ha : p.of a = some s) (b : NodeId) :
    (p.addEdge s (a, b)).Records (edges ++ [(a, b)]) := by
  have hmember := hp.of_eq_some_iff.1 ha
  have hentry (i : Nat) : ((p.addEdge s (a, b)).entry i).edges =
      if i = s.index then addUnlessThere (p.entry i).edges (a, b) else (p.entry i).edges := by
    rw [Partition.addEdge, entry_modify, root_of_survives (hp.of_survives ha)]
    by_cases hi : i = s.index
    · rw [if_pos hi, if_pos ⟨hi.symm, hi ▸ hp.of_lt ha⟩]
    · rw [if_neg hi, if_neg fun h ↦ hi h.1.symm]
  constructor
  case mem_edges =>
    intro i e
    change _ ↔ _ ∧ p.membership e.1 = some i
    rw [hentry, List.mem_append, List.mem_singleton]
    split
    · next hi =>
      rw [mem_addUnlessThere, h.mem_edges, or_and_right]
      refine or_congr_right (iff_self_and.2 fun he ↦ ?_)
      rw [he, hi]
      exact hmember
    · next hi =>
      rw [h.mem_edges, or_and_right, or_iff_left]
      intro hnew
      rw [hnew.1, hmember] at hnew
      exact hi (Option.some.inj hnew.2).symm
  case nodup =>
    intro i
    rw [hentry]
    split
    · exact nodup_addUnlessThere (h.nodup i) _
    · exact h.nodup i
  case placed =>
    intro e he
    rw [Ne, WellFormed.of_eq_none_iff]
    change p.membership e.1 ≠ none
    rw [List.mem_append, List.mem_singleton] at he
    rcases he with he | he
    · rw [Ne, ← WellFormed.of_eq_none_iff]
      exact h.placed he
    · rw [he, hmember]
      exact Option.some_ne_none _

theorem meets (h : p.Records edges) (hp : p.WellFormed) (hab : a ≠ b)
    (hm : Meets a b p into q) : q.Records edges := by
  cases hm with
  | already ha hb => exact h
  | target ha hb => exact h.assign hb (hp.of_survives ha)
  | source ha hb => exact h.assign ha (hp.of_survives hb)
  | new ha hb =>
    have hsource := h.create.assign ((of_create hp a).trans ha) (survives_create p)
    exact hsource.assign (hp.of_assign_create hb hab) (survives_assign (survives_create p))
  | first ha hb hne => exact h.merge hp ha hb hne
  | second ha hb hne => exact h.merge hp hb ha hne.symm

/-- A join records the edge between the two nodes, and all others stay. -/
theorem join (h : p.Records edges) (hp : p.WellFormed) (hab : a ≠ b) :
    (p.join a b).Records (edges ++ [(a, b)]) := by
  obtain ⟨into, q, hm, hjoin⟩ := hp.exists_meets a b
  rw [hjoin]
  exact (h.meets hp hab hm).addEdge (hm.wellFormed hp hab) (hm.of_source hp hab) b

end Records

end SignalFlow.Partition
