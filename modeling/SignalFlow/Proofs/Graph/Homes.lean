import SignalFlow.Proofs.Graph.Steps

/-!
# Nodes at home and nodes that are away

Every node has a place of its own. A thread takes its nodes when it starts, which leaves their
places empty, and gives them back when it ends. A graph keeps nodes at their places all the time
and marks those that are away; here this comes to the same as taking nodes out and putting them
back. As long as no thread has died, the nodes that are away are exactly those that the threads
call.
-/

namespace SignalFlow.Graph

variable {σ ω : Type} {g g' : Graph σ ω} {t : Topology} {id : NodeId} {ids : List NodeId}

/-- The places of the nodes, those of nodes that are away being empty. -/
def homes (g : Graph σ ω) : List (Option (Node σ ω)) :=
  g.slots.map fun slot ↦ if slot.available then some slot.node else none

/-- The nodes of a list as they are now. -/
def owned (g : Graph σ ω) (ids : List NodeId) : List (NodeId × Node σ ω) :=
  ids.filterMap fun id ↦ (g.slot? id).map fun slot ↦ (id, slot.node)

/-- Takes nodes out of their places: those that are there, and the places behind. -/
def takeNodes {ν : Type} : List NodeId → List (Option ν) →
    List (NodeId × ν) × List (Option ν)
  | [], places => ([], places)
  | id :: ids, places =>
    match places[id.index]?.join with
    | none => takeNodes ids places
    | some node =>
      let (nodes, places) := takeNodes ids (places.set id.index none)
      ((id, node) :: nodes, places)

/-- Puts nodes into their places. -/
def putNodes {ν : Type} (places : List (Option ν)) (nodes : List (NodeId × ν)) :
    List (Option ν) :=
  nodes.foldl (fun places (id, node) ↦ places.set id.index (some node)) places

/-- Whether a node is at home, if it is there at all. -/
def atHome (g : Graph σ ω) (id : NodeId) : Option Bool :=
  (g.slot? id).map (·.available)

theorem atHome_modifySlot (g : Graph σ ω) (id : NodeId) {change : Slot σ ω → Slot σ ω}
    (h : ∀ slot, (change slot).available = slot.available) :
    atHome { g with slots := g.slots.modify id.index change } = g.atHome := by
  funext other
  unfold atHome slot?
  rw [List.getElem?_modify]
  cases g.slots[other.index]? with
  | none => rfl
  | some slot =>
    by_cases hindex : id.index = other.index
    · simp [hindex, h]
    · simp [hindex]

theorem slot?_setAvailable_singleton (g : Graph σ ω) (id other : NodeId) (available : Bool) :
    (g.setAvailable [id] available).slot? other =
      if id = other then (g.slot? other).map ({ · with available }) else g.slot? other := by
  unfold setAvailable slot?
  rw [List.foldl_cons, List.foldl_nil, List.getElem?_modify]
  by_cases h : id = other
  · simp [h]
  · have hindex : id.index ≠ other.index := fun heq ↦ h (congrArg NodeId.mk heq)
    simp [h, hindex]

theorem slot?_setAvailable (g : Graph σ ω) (ids : List NodeId) (available : Bool) (id : NodeId) :
    (g.setAvailable ids available).slot? id =
      if id ∈ ids then (g.slot? id).map ({ · with available }) else g.slot? id := by
  induction ids generalizing g with
  | nil => simp [setAvailable]
  | cons first ids ih =>
    change ((g.setAvailable [first] available).setAvailable ids available).slot? id = _
    rw [ih, slot?_setAvailable_singleton]
    by_cases hid : id ∈ ids
    · by_cases hfirst : first = id <;> simp [hid, hfirst, Function.comp_def]
    · by_cases hfirst : first = id
      · simp [hid, hfirst]
      · simp [hid, hfirst, Ne.symm hfirst]

theorem atHome_setAvailable (g : Graph σ ω) (ids : List NodeId) (available : Bool)
    (id : NodeId) : (g.setAvailable ids available).atHome id =
      if id ∈ ids then (g.atHome id).map fun _ ↦ available else g.atHome id := by
  rw [atHome, slot?_setAvailable, atHome]
  split
  · rw [Option.map_map, Option.map_map]
    rfl
  · rfl

theorem owned_setAvailable (g : Graph σ ω) (first : List NodeId) (available : Bool)
    (ids : List NodeId) : (g.setAvailable first available).owned ids = g.owned ids := by
  unfold owned
  refine List.filterMap_congr fun id _ ↦ ?_
  rw [slot?_setAvailable]
  split
  · rw [Option.map_map]
    rfl
  · rfl

theorem getElem?_homes (g : Graph σ ω) (id : NodeId) : g.homes[id.index]? =
    (g.slot? id).map fun slot ↦ if slot.available then some slot.node else none := by
  rw [homes, List.getElem?_map, slot?]

theorem homes_setAvailable_singleton (g : Graph σ ω) (id : NodeId) (available : Bool) :
    (g.setAvailable [id] available).homes = match g.slot? id with
      | none => g.homes
      | some slot => g.homes.set id.index (if available then some slot.node else none) := by
  apply List.ext_getElem?
  intro k
  have hleft := getElem?_homes (g.setAvailable [id] available) ⟨k⟩
  have hright := getElem?_homes g ⟨k⟩
  rw [slot?_setAvailable_singleton] at hleft
  rw [hleft]
  cases hslot : g.slot? id with
  | none =>
    dsimp only
    rw [hright]
    split
    · next heq => rw [← heq, hslot]; rfl
    · rfl
  | some slot =>
    dsimp only
    have hlt : id.index < g.homes.length := by
      rw [homes, List.length_map]
      exact (List.getElem?_eq_some_iff.1 hslot).1
    by_cases heq : id = ⟨k⟩
    · subst heq
      rw [if_pos rfl, hslot, List.getElem?_set_self hlt]
      rfl
    · have hindex : id.index ≠ k := fun h ↦ heq (congrArg NodeId.mk h)
      rw [if_neg heq, List.getElem?_set_ne hindex, hright]

/-- Nodes that are at home and are taken out are marked as away. -/
theorem takeNodes_homes (hnodup : ids.Nodup) (hhome : ∀ id ∈ ids, g.atHome id = some true) :
    takeNodes ids g.homes = (g.owned ids, (g.setAvailable ids false).homes) := by
  induction ids generalizing g with
  | nil => rfl
  | cons id ids ih =>
    obtain ⟨hid, hnodup⟩ := List.nodup_cons.1 hnodup
    obtain ⟨slot, hslot, havailable⟩ := Option.map_eq_some_iff.1 (hhome id List.mem_cons_self)
    have hplace : g.homes[id.index]?.join = some slot.node := by
      rw [getElem?_homes, hslot, Option.map_some, if_pos havailable]
      rfl
    have hset : g.homes.set id.index none = (g.setAvailable [id] false).homes := by
      rw [homes_setAvailable_singleton, hslot]
      rfl
    have hrest : ∀ other ∈ ids, (g.setAvailable [id] false).atHome other = some true := by
      intro other hother
      have hne : other ∉ [id] := fun h ↦ hid (List.mem_singleton.1 h ▸ hother)
      rw [atHome_setAvailable, if_neg hne]
      exact hhome other (List.mem_cons_of_mem _ hother)
    have howned : g.owned (id :: ids) = (id, slot.node) :: g.owned ids := by
      simp [owned, hslot]
    let behind := g.setAvailable [id] false
    calc
      takeNodes (id :: ids) g.homes =
          ((id, slot.node) :: (takeNodes ids (g.homes.set id.index none)).1,
            (takeNodes ids (g.homes.set id.index none)).2) := by rw [takeNodes, hplace]
      _ = ((id, slot.node) :: behind.owned ids, (behind.setAvailable ids false).homes) := by
        rw [hset, ih hnodup hrest]
      _ = (g.owned (id :: ids), (g.setAvailable (id :: ids) false).homes) := by
        rw [owned_setAvailable, howned]
        rfl

/-- Nodes that are put into their places are marked as being at home. -/
theorem putNodes_homes (g : Graph σ ω) (ids : List NodeId) :
    putNodes g.homes (g.owned ids) = (g.setAvailable ids true).homes := by
  induction ids generalizing g with
  | nil => rfl
  | cons id ids ih =>
    have hfirst := homes_setAvailable_singleton g id true
    have hrest := ih (g.setAvailable [id] true)
    rw [owned_setAvailable, hfirst] at hrest
    change _ = ((g.setAvailable [id] true).setAvailable ids true).homes
    cases hslot : g.slot? id with
    | none =>
      rw [hslot] at hrest
      rw [← hrest]
      simp [owned, hslot]
    | some slot =>
      rw [hslot] at hrest
      rw [← hrest]
      simp [owned, hslot, putNodes]

/-! ## Who is away -/

/-- The nodes that the threads of a graph call. -/
def away (g : Graph σ ω) : List NodeId :=
  (g.runs.getD []).flatMap Run.order

theorem away_eq_duties (g : Graph σ ω) : g.away = (g.duties.getD []).flatMap Prod.snd := by
  unfold away duties
  cases g.runs with
  | none => rfl
  | some runs => simp [List.flatMap_map, duty]

theorem away_congr (h : g'.duties = g.duties) : g'.away = g.away := by
  rw [away_eq_duties, h, away_eq_duties]

theorem away_of_stopped (h : g.runs = none) : g.away = [] := by
  simp [away, h]

/-- Behind a start the nodes of all runs are away. -/
theorem away_of_initialised [Behaviour σ ω] (g : Graph σ ω) (runs : List Run) :
    (g.initialised runs).away = runs.flatMap Run.order :=
  away_congr (works_initialised g runs).duties

theorem dead_eq_nil_iff : g.dead = [] ↔ ∀ run ∈ g.runs.getD [], run.alive = true := by
  simp [dead, List.filter_eq_nil_iff]

/-- A graph all threads of which live, and whose nodes are away if threads call them, and at home
otherwise. -/
structure Whole (g : Graph σ ω) : Prop where
  alive : ∀ run ∈ g.runs.getD [], run.alive = true
  home : ∀ {id here}, g.atHome id = some here → (here = true ↔ id ∉ g.away)

/-- Whether all nodes of a graph are at home. -/
def AllHome (g : Graph σ ω) : Prop :=
  ∀ id here, g.atHome id = some here → here = true

theorem AllHome.congr (h : g.AllHome) (hhome : g'.atHome = g.atHome) : g'.AllHome := by
  intro id here hid
  rw [hhome] at hid
  exact h id here hid

theorem lt_of_mem_away (hg : g.Consistent t) (hstaffed : g.Staffed) (hid : id ∈ g.away) :
    id.index < g.nodeCount := by
  obtain ⟨run, hrun, hid⟩ := List.mem_flatMap.1 hid
  cases hruns : g.runs with
  | none => simp [hruns] at hrun
  | some runs =>
    rw [hruns] at hrun
    exact hg.index_lt ((hstaffed.mem_order_iff hg.represents.wellFormed hruns hrun).1 hid)

/-- No node is away with two threads, nor twice with one. -/
theorem Staffed.nodup_away (h : g.Staffed) (hp : g.partition.WellFormed) : g.away.Nodup := by
  cases hruns : g.runs with
  | none => simp [g.away_of_stopped hruns]
  | some runs =>
    have haway : g.away = runs.flatMap Run.order := by rw [away, hruns, Option.getD_some]
    rw [haway, List.nodup_flatMap]
    refine ⟨fun run hrun ↦ (h.perm_order hruns hrun).nodup_iff.2 (hp.nodup _), ?_⟩
    have hdistinct : runs.Pairwise fun run run' ↦ run.subgraph ≠ run'.subgraph := by
      have hnodup : (runs.map Run.subgraph).Nodup := by
        rw [h.map_subgraph hruns]
        exact Partition.WellFormed.nodup_roots g.partition
      exact List.pairwise_map.1 hnodup
    refine hdistinct.imp_of_mem fun {run run'} hrun hrun' hne node hnode hnode' ↦ hne ?_
    have hof := (h.mem_order_iff hp hruns hrun).1 hnode
    have hof' := (h.mem_order_iff hp hruns hrun').1 hnode'
    exact Option.some.inj (hof.symm.trans hof')

theorem Plans.map_subgraph {runs : List Run} (h : g.Plans runs) :
    runs.map Run.subgraph = g.subgraphs := by
  have hsubgraphs : g.forwarded.subgraphs = g.subgraphs :=
    (Partition.SameTopology.forwardAll g.partition).roots_eq
  rw [← hsubgraphs, ← List.forall₂_eq_eq_eq, List.forall₂_map_left_iff]
  exact (mapM_eq_ok_iff.1 h.plans).flip.imp fun run s hplan ↦ (order_of_plan hplan).1

/-- The runs that get threads are those of the subgraphs before the first one that is refused. -/
theorem Plans.map_subgraph_granted {runs : List Run} (h : g.Plans runs) (spawner : Spawner) :
    (granted spawner runs).map Run.subgraph = g.subgraphs.takeWhile spawner.grants := by
  rw [← h.map_subgraph, List.takeWhile_map]
  rfl

/-- A run of a stopped graph calls the nodes of its subgraph. -/
theorem Plans.mem_order_iff {runs : List Run} (h : g.Plans runs) (hp : g.partition.WellFormed)
    {run : Run} (hrun : run ∈ runs) {node : NodeId} :
    node ∈ run.order ↔ g.subgraphOf node = some run.subgraph := by
  have hforward := Partition.SameTopology.forwardAll g.partition
  have hp' := hp.congr hforward.sameDivision
  have hstaffed : ({ g.forwarded with runs := some runs } : Graph σ ω).Staffed :=
    .of_plans hp' h.plans rfl rfl
  rw [hstaffed.mem_order_iff hp' rfl hrun]
  exact iff_of_eq (congrArg (· = _) (hforward.sameDivision.of_eq hp.toForest node))

/-- No node is in two runs of a stopped graph, nor twice in one. -/
theorem Plans.nodup {runs : List Run} (h : g.Plans runs) (hp : g.partition.WellFormed) :
    (runs.flatMap Run.order).Nodup := by
  have hp' := hp.congr (Partition.SameTopology.forwardAll g.partition).sameDivision
  have hstaffed : ({ g.forwarded with runs := some runs } : Graph σ ω).Staffed :=
    .of_plans hp' h.plans rfl rfl
  exact hstaffed.nodup_away hp'

namespace Whole

theorem congr (h : g.Whole) (hruns : g'.runs = g.runs) (hhome : g'.atHome = g.atHome) :
    g'.Whole where
  alive := hruns ▸ h.alive
  home := by
    rw [away, hruns, hhome]
    exact h.home

theorem allHome (h : g.Whole) (hstopped : g.runs = none) : g.AllHome := by
  intro id here hid
  exact (h.home hid).2 (by simp [g.away_of_stopped hstopped])

theorem of_allHome (h : g.AllHome) (hstopped : g.runs = none) : g.Whole where
  alive := by simp [hstopped]
  home hid := by simp [h _ _ hid, g.away_of_stopped hstopped]

end Whole

section Threads

variable [Behaviour σ ω] {own : NodeId → Prop}

theorem Step.atHome_eq (h : Step own g g') : g'.atHome = g.atHome := by
  cases h with
  | @call phase thread id hown =>
    cases hslot : g.slot? id with
    | none => rw [call_eq_self hslot]
    | some slot =>
      rw [call_eq hslot]
      exact atHome_modifySlot g id fun _ ↦ rfl
  | @attempt d hown => exact atHome_modifySlot g d.binding.node fun _ ↦ rfl
  | bury s => rfl

/-- Threads neither take nodes nor give them back while they run. -/
theorem Steps.atHome_eq (h : Steps own g g') : g'.atHome = g.atHome := by
  induction h with
  | refl => rfl
  | tail _ hstep ih => exact hstep.atHome_eq.trans ih

/-- The places stay as they are while only nodes work that are away. -/
theorem Steps.homes_eq (h : Steps own g g') (haway : ∀ id, own id → g.atHome id ≠ some true) :
    g'.homes = g.homes := by
  apply List.ext_getElem?
  intro k
  rw [getElem?_homes g' ⟨k⟩, getElem?_homes g ⟨k⟩]
  by_cases hown : own ⟨k⟩
  · have hempty {g : Graph σ ω} (hg : g.atHome ⟨k⟩ ≠ some true) :
        (g.slot? ⟨k⟩).map (fun slot ↦ if slot.available then some slot.node else none) =
          (g.atHome ⟨k⟩).map fun _ ↦ none := by
      unfold atHome at hg ⊢
      cases hslot : g.slot? ⟨k⟩ with
      | none => rfl
      | some slot =>
        rw [hslot] at hg
        have hfalse : slot.available ≠ true := fun h ↦ hg (congrArg some h)
        simp [hfalse]
    have hg := haway ⟨k⟩ hown
    rw [hempty hg, hempty (h.atHome_eq ▸ hg), h.atHome_eq]
  · rw [h.slot?_eq hown]

theorem atHome_iterate (g : Graph σ ω) (run : Run) : (g.iterate run).1.atHome = g.atHome := by
  by_cases halive : run.alive = true
  · exact (g.steps_iterate halive).atHome_eq
  · rw [Graph.iterate, if_pos (by simpa using halive)]

theorem works_destroyed (g : Graph σ ω) : g.Works g.destroyed :=
  .eachRun .destroy _ g

/-- The threads that destroy their nodes are those that the graph had. -/
theorem away_destroyed (g : Graph σ ω) : g.destroyed.away = g.away :=
  away_congr g.works_destroyed.duties

/-- The subgraphs that have lost their thread when an operation is over. -/
def Operation.lost (g : Graph σ ω) : Operation σ ω → List SubgraphId
  | .stop => g.stop.2.2
  | .start spawner =>
    (g.start spawner).1.dead ++ match (g.start spawner).2 with
      | .ok _ => []
      | .error fault => fault.lost
  | operation => (operation.apply g).dead

/-- Whether no thread dies in operations. -/
def KeepsThreads (g : Graph σ ω) : List (Operation σ ω) → Prop
  | [] => True
  | operation :: rest => operation.lost g = [] ∧ (operation.apply g).KeepsThreads rest

instance KeepsThreads.decidable : (g : Graph σ ω) → (operations : List (Operation σ ω)) →
    Decidable (g.KeepsThreads operations)
  | _, [] => .isTrue trivial
  | g, operation :: rest =>
    have := KeepsThreads.decidable (operation.apply g) rest
    inferInstanceAs (Decidable (_ ∧ _))

theorem alive_of_lost_eq_nil {operation : Operation σ ω} (h : operation.lost g = []) :
    ∀ run ∈ (operation.apply g).runs.getD [], run.alive = true := by
  cases operation with
  | stop => exact nofun
  | start spawner => exact dead_eq_nil_iff.1 (List.append_eq_nil_iff.1 h).1
  | _ => exact dead_eq_nil_iff.1 h

/-- A stop that loses no thread brings all nodes home that were away. -/
theorem stop_of_lost_eq_nil (h : g.stop.2.2 = []) :
    g.stop.1 = { g.destroyed.setAvailable g.away true with runs := none } := by
  have halive : (g.destroyed.runs.getD []).filter (·.alive) = g.destroyed.runs.getD [] :=
    List.filter_eq_self.2 (dead_eq_nil_iff.1 h)
  change { g.destroyed.setAvailable (((g.destroyed.runs.getD []).filter (·.alive)).flatMap
    (·.order)) true with runs := none } = _
  rw [halive, ← g.away_destroyed]
  rfl

end Threads

end SignalFlow.Graph
