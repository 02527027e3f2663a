import SignalFlow.Proofs.Graph.Ledger
import SignalFlow.Proofs.Graph.Targets

/-!
# Where updates go

A posting sends one batch to every subgraph with a node that its updates are for, and none to any
other. The batch has all that is for nodes of the subgraph, by name and then in the order of
binding. The result counts the batches, or names the first control whose node is in no subgraph.

It takes one pass over names and their routes to gather the batches: each delivery goes behind
those for the same subgraph, and the first control without a subgraph is kept.
-/

namespace SignalFlow

open Control

/-- What a pass over routes has gathered so far. -/
structure Gathered where
  /-- The batches in the order of their subgraphs. -/
  batches : List (SubgraphId × Batch)
  /-- The first control whose node is in no subgraph. -/
  unreached : Option (String × NodeId)

namespace Gathered

def empty : Gathered :=
  ⟨[], none⟩

/-- Puts a delivery behind the others for its subgraph. -/
def append (s : SubgraphId) (d : Delivery) : List (SubgraphId × Batch) → List (SubgraphId × Batch)
  | [] => [(s, [d])]
  | (t, batch) :: rest =>
    if s.index < t.index then (s, [d]) :: (t, batch) :: rest
    else if s = t then (t, batch ++ [d]) :: rest
    else (t, batch) :: append s d rest

/-- Adds what a name has for one of its routes. -/
def add (gathered : Gathered) (name : String) (value : Value) (route : Route) : Gathered :=
  match route.subgraph with
  | none => { gathered with
      unreached := gathered.unreached.or (some (name, route.binding.node)) }
  | some s => { gathered with
      batches := append s ⟨name, value, route.binding⟩ gathered.batches }

variable {s : SubgraphId} {ids : List SubgraphId} {gathered : Gathered}
  {routed : List (String × Value × Route)}

/-- The batches of some subgraphs remain those of an ascending list. -/
theorem append_map {batch : SubgraphId → Batch} (d : Delivery)
    (hids : ids.Pairwise (·.index < ·.index)) (hs : s ∉ ids → batch s = []) :
    append s d (ids.map fun t ↦ (t, batch t)) = (Handle.insertId s ids).map fun t ↦
      (t, if t = s then batch t ++ [d] else batch t) := by
  have hothers {rest : List SubgraphId} (hrest : s ∉ rest) :
      (rest.map fun t ↦ (t, if t = s then batch t ++ [d] else batch t)) =
        rest.map fun t ↦ (t, batch t) := by
    refine List.map_congr_left fun t ht ↦ ?_
    have hne : t ≠ s := fun heq ↦ hrest (heq ▸ ht)
    rw [if_neg hne]
  induction ids with
  | nil => simp [append, Handle.insertId, hs List.not_mem_nil]
  | cons first rest ih =>
    obtain ⟨hfirst, hrest⟩ := List.pairwise_cons.1 hids
    rw [List.map_cons, append, Handle.insertId]
    by_cases hlt : s.index < first.index
    · have hmissing : s ∉ first :: rest := by
        intro hmem
        rcases List.mem_cons.1 hmem with rfl | hmem
        · exact lt_irrefl _ hlt
        · exact lt_asymm hlt (hfirst s hmem)
      rw [if_pos hlt, if_pos hlt]
      calc
        (s, [d]) :: (first :: rest).map (fun t ↦ (t, batch t)) =
            (s, batch s ++ [d]) ::
              (first :: rest).map fun t ↦ (t, if t = s then batch t ++ [d] else batch t) := by
          rw [hothers hmissing, hs hmissing, List.nil_append]
        _ = (s :: first :: rest).map fun t ↦ (t, if t = s then batch t ++ [d] else batch t) := by
          simp only [List.map_cons, ↓reduceIte]
    · rw [if_neg hlt, if_neg hlt]
      by_cases heq : s = first
      · subst heq
        have hmissing : s ∉ rest := fun hmem ↦ lt_irrefl _ (hfirst s hmem)
        rw [if_pos rfl, if_pos rfl, List.map_cons, if_pos rfl, hothers hmissing]
      · have hrest' := ih hrest fun hmem ↦ hs fun h ↦ (List.mem_cons.1 h).elim heq hmem
        rw [if_neg heq, if_neg heq]
        calc
          (first, batch first) :: append s d (rest.map fun t ↦ (t, batch t)) =
              (first, batch first) :: (Handle.insertId s rest).map fun t ↦
                (t, if t = s then batch t ++ [d] else batch t) := by rw [hrest']
          _ = (first :: Handle.insertId s rest).map fun t ↦
                (t, if t = s then batch t ++ [d] else batch t) := by
            rw [List.map_cons, if_neg (Ne.symm heq)]

/-- What routes have for a subgraph. -/
def part (routed : List (String × Value × Route)) (s : SubgraphId) : Batch :=
  routed.filterMap fun (name, value, route) ↦
    if route.subgraph = some s then some ⟨name, value, route.binding⟩ else none

/-- The first name and node of a route to no subgraph. -/
def missed? (routed : List (String × Value × Route)) : Option (String × NodeId) :=
  routed.findSome? fun (name, _, route) ↦
    if route.subgraph = none then some (name, route.binding.node) else none

/-- What was gathered from routes: a batch for every subgraph that they lead to. -/
structure From (routed : List (String × Value × Route)) (ids : List SubgraphId)
    (gathered : Gathered) : Prop where
  ascending : ids.Pairwise (·.index < ·.index)
  mem_iff : ∀ s, s ∈ ids ↔ ∃ r ∈ routed, r.2.2.subgraph = some s
  batches : gathered.batches = ids.map fun s ↦ (s, part routed s)
  unreached : gathered.unreached = missed? routed

theorem From.empty : From [] [] empty where
  ascending := .nil
  mem_iff := by simp
  batches := rfl
  unreached := rfl

theorem From.part_eq_nil (h : From routed ids gathered) (hs : s ∉ ids) : part routed s = [] := by
  rw [part, List.filterMap_eq_nil_iff]
  rintro ⟨name, value, route⟩ hr
  exact if_neg fun heq ↦ hs ((h.mem_iff s).2 ⟨_, hr, heq⟩)

/-- One more route is one more delivery for its subgraph, or the first one that is missed. -/
theorem From.add (h : From routed ids gathered) (name : String) (value : Value) (route : Route) :
    ∃ ids', From (routed ++ [(name, value, route)]) ids' (gathered.add name value route) := by
  obtain ⟨binding, _ | s⟩ := route
  · refine ⟨ids, ?_⟩
    constructor
    case ascending => exact h.ascending
    case mem_iff =>
      intro t
      simp [h.mem_iff]
    case batches =>
      refine h.batches.trans (List.map_congr_left fun t _ ↦ ?_)
      simp [part]
    case unreached =>
      have hmissed := congrArg (Option.or · (some (name, binding.node))) h.unreached
      rw [missed?, List.findSome?_append]
      exact hmissed
  · refine ⟨Handle.insertId s ids, ?_⟩
    constructor
    case ascending => exact Handle.ascending_insertId s h.ascending
    case mem_iff =>
      intro t
      rw [Handle.mem_insertId, h.mem_iff]
      simp [or_comm, eq_comm]
    case batches =>
      have happend := append_map (s := s) ⟨name, value, binding⟩ h.ascending h.part_eq_nil
      rw [← h.batches] at happend
      refine happend.trans (List.map_congr_left fun t _ ↦ ?_)
      by_cases ht : t = s
      · simp [part, ht]
      · simp [part, ht, Ne.symm ht]
    case unreached =>
      refine h.unreached.trans ?_
      simp [missed?, List.findSome?_append]

theorem exists_from_foldl (routed : List (String × Value × Route)) : ∃ ids, From routed ids
    (routed.foldl (fun gathered r ↦ gathered.add r.1 r.2.1 r.2.2) empty) := by
  induction routed using List.reverseRecOn with
  | nil => exact ⟨[], .empty⟩
  | append_singleton routed last ih =>
    obtain ⟨ids, h⟩ := ih
    rw [List.foldl_append]
    exact h.add last.1 last.2.1 last.2.2

end Gathered

/-- Gathers what updates have for the subgraphs that routes lead to, name by name. Names without
routes are passed over. -/
def Handle.gather (h : Handle) (updates : Updates) : Gathered :=
  updates.entries.foldl (fun gathered (name, value) ↦
    match h.get? name with
    | none => gathered
    | some routes => routes.foldl (fun gathered route ↦ gathered.add name value route) gathered)
    .empty

theorem Handle.gather_eq_foldl (h : Handle) (updates : Updates) :
    h.gather updates =
      (h.routed updates).foldl (fun gathered r ↦ gathered.add r.1 r.2.1 r.2.2) .empty := by
  rw [gather, routed, List.foldl_flatMap]
  congr 1
  funext gathered update
  simp only [List.foldl_map]
  cases h.get? update.1 with
  | none => rfl
  | some routes => rfl

/-- One pass gathers the batches for all subgraphs that are reached. -/
theorem Handle.gather_eq (h : Handle) (updates : Updates) : h.gather updates =
    ⟨(h.reached updates).map fun s ↦ (s, h.batch updates s), h.unreached? updates⟩ := by
  obtain ⟨ids, hfrom⟩ := Gathered.exists_from_foldl (h.routed updates)
  rw [← gather_eq_foldl] at hfrom
  have hids : ids = h.reached updates := by
    have hirrefl : Std.Irrefl fun s t : SubgraphId ↦ s.index < t.index := ⟨fun _ ↦ lt_irrefl _⟩
    have hantisymm : Std.Antisymm fun s t : SubgraphId ↦ s.index < t.index :=
      ⟨fun _ _ hlt hgt ↦ absurd hgt (lt_asymm hlt)⟩
    refine hfrom.ascending.eq_of_mem_iff (h.ascending_reached updates) fun s ↦ ?_
    rw [hfrom.mem_iff, mem_reached]
  subst hids
  calc
    h.gather updates = ⟨(h.gather updates).batches, (h.gather updates).unreached⟩ := rfl
    _ = _ := by
      rw [hfrom.batches, hfrom.unreached]
      rfl

namespace Graph

variable {σ ω : Type} {g : Graph σ ω} {t : Topology} {l : Ledger}

def dispatch (g : Graph σ ω) (gathered : Gathered) : Graph σ ω × Except GraphError Nat :=
  ({ g with partition := gathered.batches.foldl (fun p (s, batch) ↦ p.send s batch) g.partition },
    match gathered.unreached with
    | some (name, node) => .error (.invalidControlNode name node)
    | none => .ok gathered.batches.length)

/-- A posting sends what one pass over the routes gathers. -/
theorem postThrough_eq_dispatch (g : Graph σ ω) (h : Handle) (updates : Updates) :
    g.postThrough h updates = g.dispatch (h.gather updates) := by
  rw [dispatch, h.gather_eq, List.foldl_map, List.length_map]
  rfl

/-! ## Batches -/

/-- The subgraphs with nodes that deliveries are for. -/
def owners (g : Graph σ ω) (deliveries : List Delivery) : List SubgraphId :=
  (deliveries.filterMap fun d ↦ g.subgraphOf d.binding.node).dedup

/-- Deliveries are sent: one batch for each subgraph with a node that they are for. -/
structure Dispatches (g : Graph σ ω) (deliveries : List Delivery)
    (outcome : Graph σ ω × Except GraphError Nat) : Prop where
  /-- Nothing changes but what waits. -/
  graph : outcome.1 = { g with partition := outcome.1.partition }
  topology : g.partition.SameTopology outcome.1.partition
  owner : ∀ s ∈ g.owners deliveries, (outcome.1.partition.entry s.index).pending =
    (g.partition.entry s.index).pending ++
      [deliveries.filter fun d ↦ g.subgraphOf d.binding.node = some s]
  other : ∀ s ∉ g.owners deliveries,
    (outcome.1.partition.entry s.index).pending = (g.partition.entry s.index).pending
  /-- The first control whose node is in no subgraph is the error. -/
  result : outcome.2 =
    match deliveries.find? fun d ↦ (g.subgraphOf d.binding.node).isNone with
    | none => .ok (g.owners deliveries).length
    | some d => .error (.invalidControlNode d.name d.binding.node)

theorem mem_owners {deliveries : List Delivery} {s : SubgraphId} : s ∈ g.owners deliveries ↔
    ∃ d ∈ deliveries, g.subgraphOf d.binding.node = some s := by
  rw [owners, List.mem_dedup, List.mem_filterMap]

theorem mem_reached_handle {updates : Updates} {s : SubgraphId} :
    s ∈ g.handle.reached updates ↔ s ∈ g.owners (intended g.boundTo updates) := by
  rw [Handle.mem_reached, routed_handle, mem_owners]
  simp

theorem length_reached_handle (g : Graph σ ω) (updates : Updates) :
    (g.handle.reached updates).length = (g.owners (intended g.boundTo updates)).length := by
  have hnodup := Handle.nodup_of_ascending (g.handle.ascending_reached updates)
  exact ((List.perm_ext_iff_of_nodup hnodup (List.nodup_dedup _)).2
    fun _ ↦ mem_reached_handle).length_eq

theorem unreached?_handle (g : Graph σ ω) (updates : Updates) : g.handle.unreached? updates =
    ((intended g.boundTo updates).find? fun d ↦ (g.subgraphOf d.binding.node).isNone).map
      fun d ↦ (d.name, d.binding.node) := by
  rw [Handle.unreached?, routed_handle, List.findSome?_map]
  induction intended g.boundTo updates with
  | nil => rfl
  | cons d rest ih =>
    cases hnode : g.subgraphOf d.binding.node with
    | none => simp [hnode]
    | some s => simpa [hnode] using ih

theorem dispatches_post (hp : g.partition.WellFormed) (updates : Updates) :
    g.Dispatches (intended g.boundTo updates) (g.post updates) := by
  have hpending (s : SubgraphId) := (leads_handle hp).pending_posted updates s.index
  constructor
  case graph => rfl
  case topology => exact Partition.sameTopology_posted g.partition g.handle updates
  case owner =>
    intro s hs
    refine (hpending s).trans ?_
    rw [if_pos (mem_reached_handle.2 hs), batch_handle]
  case other =>
    intro s hs
    refine (hpending s).trans ?_
    rw [if_neg (mem_reached_handle.not.2 hs), List.append_nil]
  case result =>
    simp only [post, postThrough, unreached?_handle, length_reached_handle]
    cases (intended g.boundTo updates).find? _ <;> rfl

section Recorded

variable [Behaviour σ ω]

theorem boundTo_record (h : g.boundTo = l.boundTo) (operation : Operation σ ω) :
    (operation.apply g).boundTo = (g.record l operation).boundTo := by
  cases operation with
  | bind ref name storage validator =>
    simp only [Operation.apply, record]
    rcases hok : g.bind ref name storage validator with e | g'
    · exact h
    · obtain ⟨-, rfl⟩ := bind_eq_ok hok
      exact boundTo_bound h name _
  | unbindAll =>
    simp only [Operation.apply, record]
    rcases hok : g.unbindAll with e | g'
    · exact h
    · obtain ⟨-, rfl⟩ := unbindAll_eq_ok_iff.1 hok
      rfl
  | _ =>
    funext name
    rw [Graph.boundTo, Operation.bindings_apply g]
    · exact congrFun h name
    · trivial

theorem boundTo_recordAll (h : g.boundTo = l.boundTo) (operations : List (Operation σ ω)) :
    (g.after operations).boundTo = (g.recordAll l operations).boundTo := by
  induction operations generalizing g l with
  | nil => exact h
  | cons operation rest ih => exact ih (boundTo_record h operation)

/-- Whatever was done to a graph, updates go in one batch to each subgraph with a node that was
bound to one of their names. The result tells of the first such node that is in no subgraph, and
the others are served all the same. -/
theorem updates_are_dispatched (options : Options) (operations : List (Operation σ ω))
    (updates : Updates) :
    let g : Graph σ ω := (empty options).after operations
    let bound := ((empty options).recordAll .empty operations).boundTo
    g.Dispatches (intended bound updates) (g.post updates) ∧
      g.postThrough g.handle updates = g.post updates ∧
      g.post updates = g.dispatch (g.handle.gather updates) := by
  intro g bound
  have hbound : g.boundTo = bound := boundTo_recordAll rfl operations
  have hp := (consistent_after options operations).represents.wellFormed
  refine ⟨?_, rfl, postThrough_eq_dispatch g g.handle updates⟩
  rw [← hbound]
  exact dispatches_post hp updates

/-- A gain that is not connected is reported, and the one behind it is served. -/
example :
    let level := Value.double (Numeric.Binary.zero Numeric.binary64 false)
    let g : Graph Demo.Node Empty := (empty .standard).after (
      .replicate 3 (.add (Demo.Gain.ports (Numeric.Binary.zero Numeric.binary64 false)) .gain) ++
        [.connect (.connect ⟨0⟩ ⟨1⟩), .bind ⟨⟨2⟩, Demo.Gain.gainPort⟩ "level" .double none,
          .bind ⟨⟨1⟩, Demo.Gain.gainPort⟩ "level" .double none])
    let (g', result) := g.post (NameMap.empty.insert "level" level)
    result = .error (.invalidControlNode "level" ⟨2⟩) ∧
      (g'.partition.waiting 0).map (·.binding.node) = [⟨1⟩] := by
  decide

end Recorded

end Graph

end SignalFlow
