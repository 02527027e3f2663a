import SignalFlow.Proofs.Graph.Batches
import SignalFlow.Proofs.Graph.Cycle

/-!
# Which update wins

Updates for a control are delivered one after the other, so that the last one wins. Their order is
that of posting, but for those by an old handle to an entry that had been merged when they were
posted. These are late: they wait there until a start forwards them behind all others.
-/

namespace SignalFlow

open Control

namespace Handle

/-- The deliveries that updates ask for, with the entries that they are sent to. -/
def sent (h : Handle) (updates : Updates) : List (SubgraphId × Delivery) :=
  (h.routed updates).filterMap fun (name, value, route) ↦
    route.subgraph.map fun s ↦ (s, ⟨name, value, route.binding⟩)

theorem batch_eq (h : Handle) (updates : Updates) (s : SubgraphId) :
    h.batch updates s = ((h.sent updates).filter (·.1 = s)).map (·.2) := by
  unfold batch sent
  induction h.routed updates with
  | nil => rfl
  | cons head rest ih =>
    obtain ⟨name, value, binding, _ | t⟩ := head
    · simpa using ih
    · by_cases hs : t = s
      · simpa [hs] using ih
      · simpa [hs] using ih

theorem exists_route_of_mem_sent {h : Handle} {updates : Updates} {x : SubgraphId × Delivery}
    (hx : x ∈ h.sent updates) : ∃ name, ∃ route ∈ h.routes name,
      route.subgraph = some x.1 ∧ route.binding = x.2.binding := by
  obtain ⟨⟨name, value, route⟩, hr, hsome⟩ := List.mem_filterMap.1 hx
  obtain ⟨s, hs, rfl⟩ := Option.map_eq_some_iff.1 hsome
  exact ⟨name, route, exists_route_of_mem_routed hr, hs, rfl⟩

end Handle

/-- What was posted so far, and what became of it. -/
structure Mail where
  /-- The deliveries since batches were forwarded last, in the order of posting. -/
  recent : List Delivery
  /-- The deliveries that were not late or have been forwarded, in the order of delivery. -/
  prompt : List Delivery
  /-- The deliveries that wait for merged entries, in the order of posting. -/
  late : List (SubgraphId × Delivery)
  /-- The deliveries that threads attempted. -/
  attempted : List Delivery

namespace Mail

def empty : Mail :=
  ⟨[], [], [], []⟩

/-- The deliveries that wait for a merged entry. -/
def lateFor (m : Mail) (i : Nat) : List Delivery :=
  (m.late.filter (·.1.index = i)).map (·.2)

/-- All deliveries in the order in which threads come to them, if batches are forwarded now from
the given number of entries. -/
def order (m : Mail) (entries : Nat) : List Delivery :=
  m.prompt ++ (List.range entries).flatMap m.lateFor

/-- The deliveries for a port that no thread has attempted, in the order in which threads come to
them. -/
def due (m : Mail) (entries : Nat) (ref : PortRef) : List Delivery :=
  ((m.order entries).filter (·.isFor ref)).drop (m.attempted.filter (·.isFor ref)).length

def tally (p : Partition Batch) (m : Mail) : Motion → Mail
  | .post handle updates =>
    { m with
      recent := m.recent ++ (handle.sent updates).map (·.2)
      prompt := m.prompt ++ ((handle.sent updates).filter (p.Survives ·.1.index)).map (·.2)
      late := m.late ++ (handle.sent updates).filter (¬ p.Survives ·.1.index) }
  | .drain s => { m with attempted := m.attempted ++ p.waiting s.index }
  | .forward => { m with recent := [], prompt := m.order p.entries.length, late := [] }
  | .rest | .connect _ => m

/-- Mail that tells of a partition what waits where. -/
structure Sorts (p : Partition Batch) (m : Mail) : Prop where
  balance : ∀ node, m.prompt.filter (·.binding.node = node) =
    m.attempted.filter (·.binding.node = node) ++ p.backlog node
  late : ∀ i, ¬ p.Survives i → p.waiting i = m.lateFor i
  merged : ∀ x ∈ m.late, ¬ p.Survives x.1.index
  /-- Deliveries of which none is late are delivered in the order of posting. -/
  recent : ∀ P : Delivery → Bool, (∀ x ∈ m.late, P x.2 = false) →
    m.recent.filter P <:+ m.prompt.filter P

namespace Sorts

variable {p q : Partition Batch} {t : Topology} {c : Connection} {motion : Motion} {m : Mail}
  {handle : Handle} {updates : Updates} {s : SubgraphId}

theorem lateFor_eq_nil (h : m.Sorts p) {i : Nat} (hi : p.Survives i) : m.lateFor i = [] := by
  rw [lateFor, List.map_eq_nil_iff, List.filter_eq_nil_iff]
  intro x hx heq
  exact h.merged x hx (of_decide_eq_true heq ▸ hi)

theorem shifts (h : m.Sorts p) (hshifts : p.Shifts q) : m.Sorts q where
  balance node := by rw [h.balance, hshifts.backlog]
  late i hi := by
    by_cases hold : p.Survives i
    · rw [hshifts.emptied i hold hi, h.lateFor_eq_nil hold]
    · rw [(hshifts.stays i hold).2, h.late i hold]
  merged x hx := (hshifts.stays _ (h.merged x hx)).1
  recent := h.recent

/-- What is posted for a node and is not late is sent to the subgraph of the node. -/
theorem filter_sent (hp : p.WellFormed) (hleads : p.Leads handle) (node : NodeId) :
    (((handle.sent updates).filter (p.Survives ·.1.index)).map (·.2)).filter
        (·.binding.node = node) = (p.membership node).elim []
      fun i ↦ (handle.batch updates ⟨i⟩).filter (·.binding.node = node) := by
  have hof {x : SubgraphId × Delivery} (hx : x ∈ handle.sent updates) :
      p.of x.2.binding.node = some (p.find x.1) := by
    obtain ⟨name, route, hroute, hs, hbinding⟩ := Handle.exists_route_of_mem_sent hx
    rw [← hbinding]
    exact (hleads name route hroute x.1 hs).2
  cases hnode : p.membership node with
  | none =>
    -- Routes lead to the subgraphs of their nodes, and this node is in none.
    rw [Option.elim_none, List.filter_eq_nil_iff]
    intro d hd heq
    obtain ⟨x, hx, rfl⟩ := List.mem_map.1 hd
    have hsome := hof (List.mem_filter.1 hx).1
    rw [of_decide_eq_true heq, Partition.WellFormed.of_eq_none_iff.2 hnode] at hsome
    cases hsome
  | some i =>
    rw [Option.elim_some, Handle.batch_eq, List.filter_map, List.filter_map, List.filter_filter,
      List.filter_filter]
    congr 1
    refine List.filter_congr fun x hx ↦ ?_
    have hsome := hof hx
    simp only [Function.comp, Bool.and_eq_decide, decide_eq_true_eq, decide_eq_decide]
    refine and_congr_right fun heq ↦ ?_
    rw [heq, hp.of_eq_some_iff.2 hnode] at hsome
    constructor
    · intro hsurvives
      rw [Partition.find_of_survives hsurvives] at hsome
      exact (Option.some.inj hsome).symm
    · intro hx
      rw [hx]
      exact hp.of_survives (hp.of_eq_some_iff.2 hnode)

/-- All that is sent to a merged entry is late. -/
theorem map_filter_late {i : Nat} (hi : ¬ p.Survives i) :
    (((handle.sent updates).filter (¬ p.Survives ·.1.index)).filter (·.1.index = i)).map (·.2) =
      handle.batch updates ⟨i⟩ := by
  rw [Handle.batch_eq, List.filter_filter]
  congr 1
  refine List.filter_congr fun x _ ↦ ?_
  simp only [Bool.and_eq_decide, decide_eq_true_eq, decide_eq_decide]
  constructor
  · rintro ⟨rfl, -⟩
    rfl
  · intro hentry
    rw [hentry]
    exact ⟨rfl, hi⟩

/-- Deliveries of which none is late are all sent to survivors. -/
theorem filter_sent_of_prompt {P : Delivery → Bool}
    (h : ∀ x ∈ (handle.sent updates).filter (¬ p.Survives ·.1.index), P x.2 = false) :
    (((handle.sent updates).filter (p.Survives ·.1.index)).map (·.2)).filter P =
      ((handle.sent updates).map (·.2)).filter P := by
  rw [List.filter_map, List.filter_map, List.filter_filter]
  congr 1
  refine List.filter_congr fun x hx ↦ ?_
  by_cases hs : p.Survives x.1.index
  · simp [hs]
  · have hlate : P x.2 = false := h x (by simp [hx, hs])
    simp [hlate]

theorem post (h : m.Sorts p) (hp : p.WellFormed) (hleads : p.Leads handle) :
    (m.tally p (.post handle updates)).Sorts (p.posted handle updates) := by
  have hsurvives := (p.sameTopology_posted handle updates).sameDivision.survives_iff
  constructor
  case balance =>
    intro node
    let prompt := ((handle.sent updates).filter (p.Survives ·.1.index)).map (·.2)
    calc
      (m.prompt ++ prompt).filter (·.binding.node = node) =
          m.attempted.filter (·.binding.node = node) ++
            (p.backlog node ++ prompt.filter (·.binding.node = node)) := by
        rw [List.filter_append, h.balance, List.append_assoc]
      _ = m.attempted.filter (·.binding.node = node) ++
            (p.posted handle updates).backlog node := by
        rw [filter_sent hp hleads, hleads.backlog_posted]
  case late =>
    intro i hi
    rw [hsurvives] at hi
    calc
      (p.posted handle updates).waiting i = m.lateFor i ++ handle.batch updates ⟨i⟩ := by
        rw [hleads.waiting_posted, h.late i hi]
      _ = ((m.late ++ (handle.sent updates).filter (¬ p.Survives ·.1.index)).filter
            (·.1.index = i)).map (·.2) := by
        rw [List.filter_append, List.map_append, map_filter_late hi, lateFor]
  case merged =>
    intro x hx
    rw [hsurvives]
    rcases List.mem_append.1 hx with hx | hx
    · exact h.merged x hx
    · exact of_decide_eq_true (List.mem_filter.1 hx).2
  case recent =>
    intro P hnone
    obtain ⟨first, hfirst⟩ := h.recent P fun x hx ↦ hnone x (List.mem_append_left _ hx)
    have hnew := filter_sent_of_prompt fun x hx ↦ hnone x (List.mem_append_right _ hx)
    refine ⟨first, ?_⟩
    calc
      first ++ (m.recent ++ (handle.sent updates).map (·.2)).filter P =
          m.prompt.filter P ++ ((handle.sent updates).map (·.2)).filter P := by
        rw [List.filter_append, ← List.append_assoc, hfirst]
      _ = (m.prompt ++ ((handle.sent updates).filter (p.Survives ·.1.index)).map (·.2)).filter
            P := by rw [List.filter_append, hnew]

theorem drain (h : m.Sorts p) (haddressed : p.Addressed) (hp : p.WellFormed)
    (hs : p.Survives s.index) : (m.tally p (.drain s)).Sorts (p.receive s).2 := by
  have hsurvives := (Partition.SameTopology.receive p s).sameDivision.survives_iff
  constructor
  case balance =>
    exact fun node ↦ (h.balance node).trans (haddressed.balance_receive hp hs node m.attempted)
  case late =>
    intro i hi
    rw [hsurvives] at hi
    rw [Partition.waiting_receive, if_neg fun heq : i = s.index ↦ hi (heq ▸ hs)]
    exact h.late i hi
  case merged =>
    intro x hx
    rw [hsurvives]
    exact h.merged x hx
  case recent => exact h.recent

theorem forward (h : m.Sorts p) (haddressed : p.Addressed) (hp : p.WellFormed) :
    (m.tally p .forward).Sorts p.forwardAll where
  balance node := by
    have hlate : ((List.range p.entries.length).flatMap fun j ↦
        if p.Survives j then [] else p.waiting j) =
          (List.range p.entries.length).flatMap m.lateFor := by
      congr 1
      funext j
      split
      · next hj => exact (h.lateFor_eq_nil hj).symm
      · next hj => exact h.late j hj
    let late := (List.range p.entries.length).flatMap m.lateFor
    calc
      (m.prompt ++ late).filter (·.binding.node = node) =
          m.attempted.filter (·.binding.node = node) ++
            (p.backlog node ++ late.filter (·.binding.node = node)) := by
        rw [List.filter_append, h.balance, List.append_assoc]
      _ = m.attempted.filter (·.binding.node = node) ++ p.forwardAll.backlog node := by
        rw [haddressed.backlog_forwardAll hp, hlate]
  late i hi := by
    have htopology := Partition.SameTopology.forwardAll p
    rw [hp.waiting_forwardAll]
    exact if_neg ((htopology.sameDivision.survives_iff i).not.1 hi)
  merged := nofun
  recent _ _ := List.nil_suffix

theorem apply (haddressed : p.Addressed) (ht : p.Represents t) (hlegal : motion.Legal p)
    (h : m.Sorts p) : (m.tally p motion).Sorts (motion.apply p) := by
  have hp := ht.wellFormed
  cases motion with
  | rest => exact h
  | connect c => exact h.shifts (.extend haddressed ht hlegal)
  | post handle updates => exact h.post hp hlegal
  | drain s => exact h.drain haddressed hp hlegal
  | forward => exact h.forward haddressed hp

/-- If nothing for a port is late, the last delivery that is due for it is the one that was posted
last. -/
theorem last_recent (h : m.Sorts p) {ref : PortRef} {entries : Nat} {d last : Delivery}
    (hlate : ∀ x ∈ m.late, x.2.isFor ref = false)
    (hdue : (m.due entries ref).getLast? = some d)
    (hlast : (m.recent.filter (·.isFor ref)).getLast? = some last) : last = d := by
  have hnone : ((List.range entries).flatMap m.lateFor).filter (·.isFor ref) = [] := by
    rw [List.filter_eq_nil_iff]
    intro d hd
    obtain ⟨i, -, hd⟩ := List.mem_flatMap.1 hd
    obtain ⟨x, hx, rfl⟩ := List.mem_map.1 hd
    rw [hlate x (List.mem_filter.1 hx).1]
    exact Bool.false_ne_true
  obtain ⟨before, hbefore⟩ := h.recent (·.isFor ref) hlate
  have horder : (m.order entries).filter (·.isFor ref) =
      before ++ m.recent.filter (·.isFor ref) := by
    calc
      (m.order entries).filter (·.isFor ref) = m.prompt.filter (·.isFor ref) ++
          ((List.range entries).flatMap m.lateFor).filter (·.isFor ref) := List.filter_append ..
      _ = m.prompt.filter (·.isFor ref) := by rw [hnone, List.append_nil]
      _ = before ++ m.recent.filter (·.isFor ref) := hbefore.symm
  have hprompt : ((m.order entries).filter (·.isFor ref)).getLast? = some last := by
    rw [horder, List.getLast?_append, hlast]
    rfl
  obtain ⟨first, hfirst⟩ := List.drop_suffix (m.attempted.filter (·.isFor ref)).length
    ((m.order entries).filter (·.isFor ref))
  rw [← hfirst, List.getLast?_append] at hprompt
  change (m.due entries ref).getLast?.or first.getLast? = some last at hprompt
  rw [hdue] at hprompt
  exact (Option.some.inj hprompt).symm

end Sorts

end Mail

namespace Graph

variable {σ ω : Type} [Behaviour σ ω] {g : Graph σ ω} {t : Topology} {taken : List Handle}
  {ref : PortRef} {d : Delivery} {s : SubgraphId} {run : Run} {m : Mail}

omit [Behaviour σ ω] in
theorem storedAt_attempt_of_not_isFor (h : d.isFor ref = false) :
    (g.attempt d).storedAt ref = g.storedAt ref := by
  have hother : ¬ (d.binding.node = ref.node ∧ d.binding.port = ref.port) := of_decide_eq_false h
  rw [storedAt, slot?_attempt, storedAt]
  split
  · next hnode =>
    have hport : d.binding.port ≠ ref.port := fun hport ↦ hother ⟨hnode, hport⟩
    cases g.slot? ref.node with
    | none => rfl
    | some slot => exact Binding.stored_apply_of_ne hport
  · rfl

omit [Behaviour σ ω] in
/-- An attempt with a value that is accepted leaves that value in the control. -/
theorem storedAt_attempt {data : d.binding.storage.Carrier} (hfor : d.isFor ref = true)
    (htargets : g.Targets d.binding) (haccept : d.binding.accept d.value = .ok data) :
    (g.attempt d).storedAt ref = some ⟨d.binding.storage, data⟩ := by
  obtain ⟨hnode, hport⟩ : d.binding.node = ref.node ∧ d.binding.port = ref.port :=
    of_decide_eq_true hfor
  obtain ⟨slot, hslot, hcontrol⟩ := Option.bind_eq_some_iff.1 htargets
  rw [storedAt, slot?_attempt, if_pos hnode, ← hnode, hslot, ← hport]
  exact Binding.stored_apply hcontrol haccept

theorem shapeOf_foldl_attempt (g : Graph σ ω) (deliveries : List Delivery) :
    (deliveries.foldl attempt g).shapeOf = g.shapeOf := by
  induction deliveries generalizing g with
  | nil => rfl
  | cons d rest ih =>
    have hstep : Step (fun _ ↦ True) g (g.attempt d) := .attempt g trivial
    exact (ih _).trans (shapeOf_congr (lasts_shapes.step hstep))

/-- Whatever was attempted before, a control stores the last value that was attempted for it. -/
theorem storedAt_foldl_attempt {deliveries : List Delivery} {data : d.binding.storage.Carrier}
    (hlast : (deliveries.filter (·.isFor ref)).getLast? = some d) (htargets : g.Targets d.binding)
    (haccept : d.binding.accept d.value = .ok data) :
    (deliveries.foldl attempt g).storedAt ref = some ⟨d.binding.storage, data⟩ := by
  induction deliveries using List.reverseRecOn with
  | nil => cases hlast
  | append_singleton rest last ih =>
    rw [List.foldl_append, List.foldl_cons, List.foldl_nil]
    rw [List.filter_append, List.filter_singleton] at hlast
    cases hfor : last.isFor ref with
    | false =>
      rw [hfor, cond_false, List.append_nil] at hlast
      rw [storedAt_attempt_of_not_isFor hfor]
      exact ih hlast
    | true =>
      rw [hfor, cond_true, List.getLast?_concat] at hlast
      cases hlast
      refine storedAt_attempt hfor ?_ haccept
      rw [Targets, shapeOf_foldl_attempt]
      exact htargets

/-! ## What is due -/

omit [Behaviour σ ω] in
/-- What is due for a control of a subgraph waits for the subgraph. -/
theorem filter_waiting_of_sorts (h : m.Sorts g.partition) (hp : g.partition.WellFormed)
    (hnode : g.subgraphOf ref.node = some s) :
    (g.partition.waiting s.index).filter (·.isFor ref) =
      (m.prompt.filter (·.isFor ref)).drop (m.attempted.filter (·.isFor ref)).length := by
  have hbacklog : g.partition.backlog ref.node =
      (g.partition.waiting s.index).filter (·.binding.node = ref.node) := by
    rw [Partition.backlog, hp.of_eq_some_iff.1 hnode]
  have hprompt : m.prompt.filter (·.isFor ref) =
      m.attempted.filter (·.isFor ref) ++
        (g.partition.waiting s.index).filter (·.isFor ref) := by
    calc
      m.prompt.filter (·.isFor ref) =
          (m.prompt.filter (·.binding.node = ref.node)).filter (·.binding.port = ref.port) :=
        filter_isFor _ ref
      _ = (m.attempted.filter (·.binding.node = ref.node)).filter (·.binding.port = ref.port) ++
          (g.partition.backlog ref.node).filter (·.binding.port = ref.port) := by
        rw [h.balance, List.filter_append]
      _ = m.attempted.filter (·.isFor ref) ++
          (g.partition.waiting s.index).filter (·.isFor ref) := by
        rw [hbacklog, filter_isFor, filter_isFor]
  rw [hprompt, List.drop_left]

/-- A thread that leaves a value in a control when it iterates. -/
structure Settles (g : Graph σ ω) (run : Run) (ref : PortRef)
    (value : (t : Storage) × t.Carrier) : Prop where
  /-- The control stores the value when all that waited has been attempted. -/
  caught_up : (g.caughtUp run).storedAt ref = some value
  /-- It does so behind the iteration, if the calls of its node do not set it. -/
  iterated : (∀ role, g.role? ref.node = some role → ∀ thread,
      role.CycleWithin ⟨(· ≠ ref.port), fun _ ↦ True⟩ thread) →
    (g.iterate run).1.storedAt ref = some value

/-- The last value that waits for a control is left in it. -/
theorem settles (hg : g.Consistent t) (hstaffed : g.Staffed) (haddressed : g.partition.Addressed)
    (hrun : g.run? s = some run) (halive : run.alive = true) {data : d.binding.storage.Carrier}
    (hlast : ((g.partition.waiting s.index).filter (·.isFor ref)).getLast? = some d)
    (htargets : g.Targets d.binding) (haccept : d.binding.accept d.value = .ok data) :
    g.Settles run ref ⟨d.binding.storage, data⟩ := by
  have hp := hg.represents.wellFormed
  obtain ⟨rfl, runs, hruns, hmem⟩ := run?_eq_some hrun
  have hcaughtUp : g.caughtUp run = (g.partition.waiting run.subgraph.index).foldl attempt
      { g with partition := (g.partition.receive run.subgraph).2 } := by
    rw [caughtUp, attempts_waiting hg hstaffed haddressed hruns hmem]
  have hstored : (g.caughtUp run).storedAt ref = some ⟨d.binding.storage, data⟩ := by
    rw [hcaughtUp]
    exact storedAt_foldl_attempt hlast htargets haccept
  constructor
  case caught_up => exact hstored
  case iterated =>
    intro hleaves
    have hnodup : run.order.Nodup := (hstaffed.perm_order hruns hmem).nodup_iff.2 (hp.nodup _)
    obtain ⟨slot, hslot, -⟩ := Option.bind_eq_some_iff.1 hstored
    have hrole : g.role? ref.node = some slot.node.role := by
      have hkept : (g.caughtUp run).role? ref.node = g.role? ref.node := by
        rw [hcaughtUp]
        exact role?_foldl_attempt _ _ _
      rw [← hkept, role?_of_slot? hslot]
    rw [fst_iterate halive,
      storedAt_advance hnodup hslot (hleaves _ hrole _) fun hne ↦ hne rfl]
    exact hstored

def mail (g : Graph σ ω) (operations : List (Operation σ ω)) : Mail :=
  g.tallied Mail.tally .empty operations

/-- Whether an operation is an iteration of another subgraph. -/
def Operation.IteratesOther (s : SubgraphId) : Operation σ ω → Prop
  | .iterate s' => s' ≠ s
  | _ => False

theorem after_others {operations : List (Operation σ ω)}
    (hothers : ∀ operation ∈ operations, operation.IteratesOther s) :
    (g.after operations).partition.waiting s.index = g.partition.waiting s.index ∧
      (g.after operations).shapeOf = g.shapeOf := by
  induction operations generalizing g with
  | nil => exact ⟨rfl, rfl⟩
  | cons operation rest ih =>
    obtain ⟨hwaiting, hshape⟩ := ih (g := operation.apply g)
      fun later hlater ↦ hothers later (List.mem_cons_of_mem _ hlater)
    have hother := hothers operation List.mem_cons_self
    change ((operation.apply g).after rest).partition.waiting s.index = _ ∧
      ((operation.apply g).after rest).shapeOf = _
    rw [hwaiting, hshape]
    cases operation with
    | iterate s' =>
      simp only [Operation.apply]
      cases hrun : g.run? s' with
      | none => exact ⟨rfl, rfl⟩
      | some run =>
        obtain ⟨rfl, -⟩ := run?_eq_some hrun
        rw [Option.elim_some]
        refine ⟨?_, shapeOf_congr (lasts_shapes.iterate g run)⟩
        rw [partition_iterate]
        split
        · rw [Partition.waiting_receive, if_neg]
          exact fun heq ↦ hother (congrArg SubgraphId.mk heq).symm
        · rfl
    | _ => exact hother.elim

theorem takesHandles_of_others {operations : List (Operation σ ω)}
    (hothers : ∀ operation ∈ operations, operation.IteratesOther s) :
    g.TakesHandles taken operations := by
  induction operations generalizing g taken with
  | nil => trivial
  | cons operation rest ih =>
    refine ⟨?_, ih fun later hlater ↦ hothers later (List.mem_cons_of_mem _ hlater)⟩
    rintro handle updates rfl
    exact (hothers _ List.mem_cons_self).elim

/-- The next iteration behind a start leaves in a control the last value that is due for it. -/
theorem Postal.settles_start (h : g.Postal taken) (hsorts : m.Sorts g.partition)
    (hg : g.Consistent t) (hstaffed : g.Staffed) (hstopped : g.isRunning = false)
    (hnode : g.subgraphOf ref.node = some s) {others : List (Operation σ ω)}
    (hothers : ∀ operation ∈ others, operation.IteratesOther s) {spawner : Spawner}
    (hrun : ((g.start spawner).1.after others).run? s = some run) (halive : run.alive = true)
    (hdue : (m.due g.partition.entries.length ref).getLast? = some d)
    (htargets : g.Targets d.binding) {data : d.binding.storage.Carrier}
    (haccept : d.binding.accept d.value = .ok data) :
    ((g.start spawner).1.after others).Settles run ref ⟨d.binding.storage, data⟩ := by
  have hp := hg.represents.wellFormed
  have hpartition : (g.start spawner).1.partition = g.partition.forwardAll := by
    rw [partition_start, hstopped]
    rfl
  have hstarted : (g.start spawner).1.Consistent t := hg.sameTopology (.start g spawner)
  have hstaffed' : (g.start spawner).1.Staffed := hstaffed.start hp spawner
  have hpostal : (Operation.apply g (.start spawner)).Postal (g.handle :: taken) :=
    h.apply hg hstaffed nofun
  have hsorts' : (m.tally g.partition .forward).Sorts (g.start spawner).1.partition := by
    rw [hpartition]
    exact hsorts.forward h.addressed hp
  have hnode' : (g.start spawner).1.subgraphOf ref.node = some s := by
    rw [subgraphOf, hpartition,
      (Partition.SameTopology.forwardAll g.partition).sameDivision.of_eq hp.toForest]
    exact hnode
  have hwaiting := filter_waiting_of_sorts hsorts' hstarted.represents.wellFormed hnode'
  obtain ⟨later, hbehind, -⟩ := hpostal.after Mail.Sorts.apply hstarted hstaffed'
    (takesHandles_of_others hothers) hsorts'
  obtain ⟨hsame, hshape⟩ := (g.start spawner).1.after_others hothers
  refine settles (hstarted.after others) (hstaffed'.after hstarted others) hbehind.addressed hrun
    halive ?_ ?_ haccept
  · rw [hsame, hwaiting]
    exact hdue
  · rw [Targets, hshape, shapeOf_congr (lasts_shapes.start g spawner)]
    exact htargets

/-- Whatever was done to a graph, the next iteration of a subgraph behind a start leaves in each
control the last value that is due for it. This is the last one that was posted since batches were
forwarded, unless one for the control was late. -/
theorem last_due_wins (options : Options) (operations others : List (Operation σ ω))
    (spawner : Spawner) {ref : PortRef} {s : SubgraphId} {run : Run} {d : Delivery}
    {data : d.binding.storage.Carrier}
    (htaken : (empty options).TakesHandles [] operations)
    (hstopped : ((empty options).after operations).isRunning = false)
    (hnode : ((empty options).after operations).subgraphOf ref.node = some s)
    (hothers : ∀ operation ∈ others, operation.IteratesOther s)
    (hrun : ((((empty options).after operations).start spawner).1.after others).run? s = some run)
    (halive : run.alive = true)
    (hdue : (((empty options).mail operations).due
      ((empty options).after operations).partition.entries.length ref).getLast? = some d)
    (htargets : ((empty options).after operations).Targets d.binding)
    (haccept : d.binding.accept d.value = .ok data) :
    ((((empty options).after operations).start spawner).1.after others).Settles run ref
        ⟨d.binding.storage, data⟩ ∧
      ((∀ x ∈ ((empty options).mail operations).late, x.2.isFor ref = false) → ∀ last,
        (((empty options).mail operations).recent.filter (·.isFor ref)).getLast? = some last →
          last = d) := by
  have hnone : Mail.Sorts (empty options : Graph σ ω).partition .empty :=
    ⟨fun _ ↦ rfl, fun _ _ ↦ rfl, nofun, fun _ _ ↦ List.nil_suffix⟩
  obtain ⟨taken, hpostal, hsorts⟩ := (postal_empty options).after Mail.Sorts.apply
    (consistent_empty options) (.of_duties_none rfl) htaken hnone
  exact ⟨hpostal.settles_start hsorts (consistent_after options operations)
    (staffed_after options operations) hstopped hnode hothers hrun halive hdue htargets haccept,
    fun hlate _ hlast ↦ hsorts.last_recent hlate hdue hlast⟩

/-- The pairs are joined, and a gain of the second one is set to one by the old handle and then to
two. -/
def gainLate : List (Operation Demo.Node Empty) :=
  let gain (n : Nat) :=
    NameMap.empty.insert "second" (.double (Numeric.Binary.ofNat Numeric.binary64 n))
  gainPairs ++ [.connect (.connect ⟨1⟩ ⟨2⟩), .postThrough gainHandle (gain 1), .post (gain 2)]

theorem takesHandles_gainLate : (empty .standard).TakesHandles [] gainLate := by
  refine ⟨nofun, nofun, nofun, nofun, nofun, nofun, nofun, nofun, nofun, ?_, nofun, trivial⟩
  intro handle updates heq
  cases heq
  exact List.mem_cons_of_mem _ List.mem_cons_self

/-- The gain of one was posted first and is delivered last. -/
theorem gainLate_settles : ((((empty .standard).after gainLate).start .willing).1.after []).Settles
    ⟨⟨0⟩, [⟨0⟩, ⟨1⟩, ⟨2⟩, ⟨3⟩], true⟩ ⟨⟨2⟩, Demo.Gain.gainPort⟩
    ⟨.double, Numeric.Binary.ofNat Numeric.binary64 1⟩ := by
  let first : Delivery := ⟨"second", .double (Numeric.Binary.ofNat Numeric.binary64 1),
    ⟨⟨2⟩, Demo.Gain.gainPort, .double, none⟩⟩
  have hdue : (((empty .standard).mail gainLate).due
      ((empty .standard).after gainLate).partition.entries.length
        ⟨⟨2⟩, Demo.Gain.gainPort⟩).getLast? = some first := rfl
  have htargets : ((empty .standard).after gainLate).Targets first.binding := by
    unfold Targets
    decide
  exact (last_due_wins (s := ⟨0⟩) .standard gainLate [] .willing takesHandles_gainLate (by decide)
    (by decide) nofun (by decide) rfl hdue htargets rfl).1

/-- The graph starts, and behind the next iteration the control has the gain that was posted before
the last one. -/
theorem gainLate_older_wins : (empty .standard).TakesHandles [] gainLate ∧
    ((empty .standard).mail gainLate).recent.map (fun d ↦ (d.binding.node, d.value)) =
      [(⟨2⟩, .double (Numeric.Binary.ofNat Numeric.binary64 1)),
        (⟨2⟩, .double (Numeric.Binary.ofNat Numeric.binary64 2))] ∧
    ((empty .standard).after gainLate).isRunning = false ∧
    (((empty .standard).after gainLate).start .willing).2.toBool = true ∧
    ((empty .standard).after gainLate).subgraphOf ⟨2⟩ = some ⟨0⟩ ∧
    (((empty .standard).after (gainLate ++ [.start .willing, .iterate ⟨0⟩])).storedAt
        ⟨⟨2⟩, Demo.Gain.gainPort⟩).map (fun x ↦ x.1.toValue x.2) =
      some (.double (Numeric.Binary.ofNat Numeric.binary64 1)) ∧
    Numeric.Binary.ofNat Numeric.binary64 1 ≠ Numeric.Binary.ofNat Numeric.binary64 2 :=
  ⟨takesHandles_gainLate, by decide +kernel, by decide, by decide, by decide, by decide +kernel,
    by decide +kernel⟩

end Graph

end SignalFlow
