import SignalFlow.Graph.Controls
import SignalFlow.Proofs.Graph.Frame
import SignalFlow.Proofs.NameMap
import SignalFlow.Proofs.Partition.Waiting

/-!
# What a posting does

A posting addresses the bound controls whose nodes are in a subgraph, name by name and in the order
of binding. Each subgraph gets its part behind what waits for it already. Nodes, bindings and the
topology stay as they are.
-/

namespace SignalFlow

open Control

namespace Handle

variable {h : Handle} {updates : Updates} {s t : SubgraphId} {ids : List SubgraphId}

/-- The routes of a name, in the order of binding. -/
def routes (h : Handle) (name : String) : List Route :=
  (h.get? name).getD []

theorem mem_insertId : t ∈ insertId s ids ↔ t = s ∨ t ∈ ids := by
  induction ids with
  | nil => simp [insertId]
  | cons first rest ih =>
    unfold insertId
    split
    · exact List.mem_cons
    · split
      · next heq =>
        subst heq
        simp
      · simp only [List.mem_cons, ih]
        tauto

theorem ascending_insertId (s : SubgraphId) (h : ids.Pairwise (·.index < ·.index)) :
    (insertId s ids).Pairwise (·.index < ·.index) := by
  induction ids with
  | nil => exact List.pairwise_singleton _ _
  | cons first rest ih =>
    obtain ⟨hfirst, hrest⟩ := List.pairwise_cons.1 h
    unfold insertId
    split
    · next hlt =>
      refine List.pairwise_cons.2 ⟨fun t ht ↦ ?_, h⟩
      rcases List.mem_cons.1 ht with rfl | ht
      · exact hlt
      · exact hlt.trans (hfirst t ht)
    · next hge =>
      split
      · exact h
      · next hne =>
        refine List.pairwise_cons.2 ⟨fun t ht ↦ ?_, ih hrest⟩
        rcases mem_insertId.1 ht with rfl | ht
        · have hindex : t.index ≠ first.index := fun heq ↦ hne (congrArg SubgraphId.mk heq)
          omega
        · exact hfirst t ht

theorem ascending_reached (h : Handle) (updates : Updates) :
    (h.reached updates).Pairwise (·.index < ·.index) := by
  unfold reached
  induction h.routed updates with
  | nil => exact .nil
  | cons head rest ih =>
    obtain ⟨name, value, binding, _ | s⟩ := head
    · exact ih
    · exact ascending_insertId s ih

theorem nodup_of_ascending (h : ids.Pairwise (·.index < ·.index)) : ids.Nodup :=
  h.imp fun hlt heq ↦ hlt.ne (congrArg SubgraphId.index heq)

theorem mem_reached :
    s ∈ h.reached updates ↔ ∃ r ∈ h.routed updates, r.2.2.subgraph = some s := by
  unfold reached
  induction h.routed updates with
  | nil => simp
  | cons head rest ih =>
    obtain ⟨name, value, binding, _ | t⟩ := head
    · simpa using ih
    · rw [List.foldr_cons]
      change s ∈ insertId t _ ↔ _
      rw [mem_insertId, ih]
      simp [eq_comm]

theorem exists_route_of_mem_routed {name : String} {value : Value} {route : Route}
    (hr : (name, value, route) ∈ h.routed updates) : route ∈ h.routes name := by
  obtain ⟨⟨name', value'⟩, -, hr⟩ := List.mem_flatMap.1 hr
  obtain ⟨route', hroute, heq⟩ := List.mem_map.1 hr
  cases heq
  exact hroute

theorem exists_route_of_mem_batch {d : Delivery} (hd : d ∈ h.batch updates s) :
    ∃ name value, ∃ route ∈ h.routes name, route.subgraph = some s ∧
      d = ⟨name, value, route.binding⟩ := by
  obtain ⟨⟨name, value, route⟩, hr, hsome⟩ := List.mem_filterMap.1 hd
  simp only [Option.ite_none_right_eq_some, Option.some.injEq] at hsome
  exact ⟨name, value, route, exists_route_of_mem_routed hr, hsome.1, hsome.2.symm⟩

/-- A subgraph that is not reached has no part in the updates. -/
theorem batch_eq_nil (hs : s ∉ h.reached updates) : h.batch updates s = [] := by
  rw [batch, List.filterMap_eq_nil_iff]
  rintro ⟨name, value, route⟩ hr
  exact if_neg fun heq ↦ hs (mem_reached.2 ⟨_, hr, heq⟩)

end Handle

namespace Partition

variable {p q : Partition Batch} {h : Handle} {updates : Updates} {s : SubgraphId} {d : Delivery}

/-- A partition in which every route leads to an entry that is part of the subgraph of its node. -/
def Leads (p : Partition Batch) (h : Handle) : Prop :=
  ∀ name, ∀ route ∈ h.routes name, ∀ s, route.subgraph = some s →
    s.index < p.entries.length ∧ p.of route.binding.node = some (p.find s)

/-- The partition with the batches of a posting behind what waited before. -/
def posted (p : Partition Batch) (h : Handle) (updates : Updates) : Partition Batch :=
  (h.reached updates).foldl (fun p s ↦ p.send s (h.batch updates s)) p

theorem sameTopology_posted (p : Partition Batch) (h : Handle) (updates : Updates) :
    p.SameTopology (p.posted h updates) := by
  unfold posted
  generalize h.reached updates = ids
  induction ids generalizing p with
  | nil => exact .refl p
  | cons s ids ih => exact (SameTopology.send p s (h.batch updates s)).trans (ih _)

namespace Leads

/-- Old routes go on to lead to the subgraphs of their nodes. -/
theorem mono (hp : p.Leads h) (hfollows : p.Follows q)
    (hlength : p.entries.length ≤ q.entries.length) : q.Leads h := by
  intro name route hroute s hs
  obtain ⟨hlt, hof⟩ := hp name route hroute s hs
  exact ⟨hlt.trans_le hlength, hfollows hof⟩

theorem lt (hp : p.Leads h) (hs : s ∈ h.reached updates) : s.index < p.entries.length := by
  obtain ⟨⟨name, value, route⟩, hr, hsubgraph⟩ := Handle.mem_reached.1 hs
  exact (hp name route (Handle.exists_route_of_mem_routed hr) s hsubgraph).1

theorem of_mem_batch (hp : p.Leads h) (hd : d ∈ h.batch updates s) :
    p.of d.binding.node = some (p.find s) := by
  obtain ⟨name, value, route, hroute, hsubgraph, rfl⟩ := Handle.exists_route_of_mem_batch hd
  exact (hp name route hroute s hsubgraph).2

theorem pending_posted (hp : p.Leads h) (updates : Updates) (i : Nat) :
    ((p.posted h updates).entry i).pending = (p.entry i).pending ++
      if ⟨i⟩ ∈ h.reached updates then [h.batch updates ⟨i⟩] else [] :=
  pending_foldl_send p _ (Handle.nodup_of_ascending (h.ascending_reached updates))
    (fun _ hs ↦ hp.lt hs) i

/-- Every entry has its part behind what waited for it before. -/
theorem waiting_posted (hp : p.Leads h) (updates : Updates) (i : Nat) :
    (p.posted h updates).waiting i = p.waiting i ++ h.batch updates ⟨i⟩ := by
  unfold waiting
  rw [hp.pending_posted, List.flatten_append]
  split
  · rw [List.flatten_singleton]
  · next hs => rw [Handle.batch_eq_nil hs, List.flatten_nil]

/-- A node has its part of what is sent to its entry behind what waited for it before. -/
theorem backlog_posted (hp : p.Leads h) (updates : Updates) (node : NodeId) :
    (p.posted h updates).backlog node = p.backlog node ++ (p.membership node).elim []
      fun i ↦ (h.batch updates ⟨i⟩).filter (·.binding.node = node) := by
  unfold Partition.backlog
  rw [(sameTopology_posted p h updates).membership]
  cases p.membership node with
  | none => rfl
  | some i => simp only [hp.waiting_posted, List.filter_append, Option.elim_some]

theorem addressed_posted (hp : p.Leads h) (hforest : p.Forest) (haddressed : p.Addressed)
    (updates : Updates) : (p.posted h updates).Addressed := by
  have hfollows := (sameTopology_posted p h updates).follows hforest
  intro i d hd
  rw [hp.waiting_posted, List.mem_append] at hd
  rcases hd with hd | hd
  · exact hfollows (haddressed i d hd)
  · exact hfollows (hp.of_mem_batch hd)

/-- A posting adds one batch for each entry that it reaches. -/
theorem load_posted (hp : p.Leads h) (updates : Updates) : (p.posted h updates).load =
    p.load + ((h.reached updates).map (h.batch updates) : List Batch) :=
  load_foldl_send p (h.batch updates) fun _ hs ↦ hp.lt hs

end Leads

end Partition

/-- The deliveries that updates ask for, by name and then in the order of binding. Names that are
not bound ask for none. -/
def intended (boundTo : String → List Binding) (updates : Updates) : List Delivery :=
  updates.entries.flatMap fun (name, value) ↦ (boundTo name).map fun b ↦ ⟨name, value, b⟩

/-- The deliveries that updates ask for, by name and then in the order of binding. Nodes without a
subgraph get none. -/
def addressed (boundTo : String → List Binding) (subgraphOf : NodeId → Option SubgraphId)
    (updates : Updates) : List Delivery :=
  updates.entries.flatMap fun (name, value) ↦
    ((boundTo name).filter fun b ↦ (subgraphOf b.node).isSome).map fun b ↦ ⟨name, value, b⟩

theorem addressed_eq_filter (boundTo : String → List Binding)
    (subgraphOf : NodeId → Option SubgraphId) (updates : Updates) :
    addressed boundTo subgraphOf updates =
      (intended boundTo updates).filter fun d ↦ (subgraphOf d.binding.node).isSome := by
  rw [addressed, intended, List.filter_flatMap]
  congr 1
  funext ⟨name, value⟩
  dsimp only
  rw [List.filter_map]
  rfl

namespace Graph

variable {σ ω : Type} {g : Graph σ ω} {updates : Updates} {s : SubgraphId}

/-- What a name is bound to, in the order of binding. -/
def boundTo (g : Graph σ ω) (name : String) : List Binding :=
  (g.bindings.get? name).getD []

/-- The routes of a new handle lead to the subgraphs of the moment. -/
theorem routes_handle (g : Graph σ ω) (name : String) :
    g.handle.routes name = (g.boundTo name).map fun b ↦ ⟨b, g.subgraphOf b.node⟩ := by
  have hget := g.bindings.get?_ofList_map (fun bound ↦ bound.map fun b : Binding ↦
    (⟨b, g.subgraphOf b.node⟩ : Route)) name
  rw [Handle.routes, boundTo, show g.handle.get? name = _ from hget]
  cases g.bindings.get? name <;> rfl

theorem routed_handle (g : Graph σ ω) (updates : Updates) :
    g.handle.routed updates = (intended g.boundTo updates).map fun d ↦
      (d.name, d.value, ⟨d.binding, g.subgraphOf d.binding.node⟩) := by
  rw [Handle.routed, intended, List.map_flatMap]
  congr 1
  funext ⟨name, value⟩
  change (g.handle.routes name).map _ = _
  rw [routes_handle, List.map_map, List.map_map]
  rfl

/-- The part of a subgraph is what is intended for its nodes. -/
theorem batch_handle (g : Graph σ ω) (updates : Updates) (s : SubgraphId) :
    g.handle.batch updates s = (intended g.boundTo updates).filter
      fun d ↦ g.subgraphOf d.binding.node = some s := by
  rw [Handle.batch, routed_handle, List.filterMap_map, ← List.filterMap_eq_filter]
  congr 1
  funext d
  simp only [Function.comp, Option.guard, decide_eq_true_eq]

theorem isSome_of_mem_addressed {d : Delivery}
    (hd : d ∈ addressed g.boundTo g.subgraphOf updates) :
    (g.subgraphOf d.binding.node).isSome := by
  rw [addressed_eq_filter] at hd
  exact (List.mem_filter.1 hd).2

/-- What is intended for the nodes of a subgraph is addressed to them. -/
theorem batch_eq_filter_addressed (g : Graph σ ω) (updates : Updates) (s : SubgraphId) :
    g.handle.batch updates s = (addressed g.boundTo g.subgraphOf updates).filter
      fun d ↦ g.subgraphOf d.binding.node = some s := by
  rw [batch_handle, addressed_eq_filter, List.filter_filter]
  refine List.filter_congr fun d _ ↦ (Bool.and_eq_left_iff_imp.2 fun heq ↦ ?_).symm
  rw [of_decide_eq_true heq]
  rfl

theorem membership_post (g : Graph σ ω) (updates : Updates) :
    (g.post updates).1.partition.membership = g.partition.membership :=
  (SameTopology.postThrough g g.handle updates).partition.membership

/-- The routes of the moment lead where the nodes are. -/
theorem leads_handle (hp : g.partition.WellFormed) : g.partition.Leads g.handle := by
  intro name route hroute s hs
  rw [routes_handle] at hroute
  obtain ⟨b, -, rfl⟩ := List.mem_map.1 hroute
  exact ⟨hp.of_lt hs, by rw [hp.find_of hs]; exact hs⟩

/-- Every subgraph has its part behind what waited for it before. -/
theorem waiting_post (hp : g.partition.WellFormed) (updates : Updates) (i : Nat) :
    (g.post updates).1.partition.waiting i = g.partition.waiting i ++
      (addressed g.boundTo g.subgraphOf updates).filter
        fun d ↦ g.subgraphOf d.binding.node = some ⟨i⟩ := by
  rw [← batch_eq_filter_addressed]
  exact (leads_handle hp).waiting_posted updates i

theorem routed_post (hp : g.partition.WellFormed) (h : g.partition.Routed) (updates : Updates) :
    (g.post updates).1.partition.Routed := by
  intro i d hd
  rw [waiting_post hp, List.mem_append] at hd
  rw [membership_post]
  rcases hd with hd | hd
  · exact h i d hd
  · exact hp.of_eq_some_iff.1 (of_decide_eq_true (List.mem_filter.1 hd).2)

/-- What is addressed to a node waits behind what waited for it before. -/
theorem backlog_post (hp : g.partition.WellFormed) (updates : Updates) (node : NodeId) :
    (g.post updates).1.partition.backlog node = g.partition.backlog node ++
      (addressed g.boundTo g.subgraphOf updates).filter (·.binding.node = node) := by
  have hpart : ((g.partition.membership node).elim [] fun i ↦
      (g.handle.batch updates ⟨i⟩).filter (·.binding.node = node)) =
        (addressed g.boundTo g.subgraphOf updates).filter (·.binding.node = node) := by
    cases hnode : g.partition.membership node with
    | none =>
      -- Nothing is addressed to a node that is in no subgraph.
      symm
      rw [Option.elim_none, List.filter_eq_nil_iff]
      intro d hd heq
      have hsome := isSome_of_mem_addressed hd
      rw [of_decide_eq_true heq, subgraphOf, Partition.WellFormed.of_eq_none_iff.2 hnode] at hsome
      cases hsome
    | some i =>
      rw [Option.elim_some, batch_eq_filter_addressed, List.filter_filter]
      refine List.filter_congr fun d _ ↦ ?_
      rw [Bool.and_eq_left_iff_imp]
      intro heq
      rw [decide_eq_true_eq] at heq ⊢
      rw [heq]
      exact hp.of_eq_some_iff.2 hnode
  calc
    (g.post updates).1.partition.backlog node =
        g.partition.backlog node ++ (g.partition.membership node).elim []
          fun i ↦ (g.handle.batch updates ⟨i⟩).filter (·.binding.node = node) :=
      (leads_handle hp).backlog_posted updates node
    _ = g.partition.backlog node ++
        (addressed g.boundTo g.subgraphOf updates).filter (·.binding.node = node) := by rw [hpart]

end Graph

end SignalFlow
