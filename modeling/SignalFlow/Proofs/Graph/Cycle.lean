import SignalFlow.Proofs.Graph.Steps
import SignalFlow.Proofs.Node.Within

/-!
# Cycles, call by call

A thread visits its nodes one after the other, first to reset and then to process them. A visit
replaces one node and what is in the queues. It is the last one if the call stops and the node
gives up when it is asked for its name. A cycle that comes to its end is all visits in a row.
-/

namespace SignalFlow

variable {σ ω : Type} [Behaviour σ ω]

/-- Whether a node keeps within a reach in a cycle, when it is reset and then processed. -/
def Role.CycleWithin (reach : Reach) (thread : Option String) (role : Role σ) : Prop :=
  (role.perform .reset thread).Within reach fun (_, role) ↦
    (role.perform .process thread).Within reach fun _ ↦ True

/-- Whether a thread goes on behind a call that ended in some way and left a role. -/
def Role.goesOn (thread : String) (ending : Except Stop Unit) (role : Role σ) : Bool :=
  match ending with
  | .ok () => true
  | .error _ => (role.naming thread).panic.isNone

namespace Graph

variable {g g' : Graph σ ω} {phase : Phase} {thread : String} {id other : NodeId}
  {ids : List NodeId} {slot : Slot σ ω}

/-- The graph behind the visit of a node, if the thread goes on. -/
def visit? (phase : Phase) (thread : String) (g : Graph σ ω) (id : NodeId) : Option (Graph σ ω) :=
  match g.slot? id with
  | none => some g
  | some slot =>
    let (result, scene, _) := g.performed phase (some thread) slot.node
    if result.2.goesOn thread result.1 then some (g.called id scene result.2) else none

/-- The graph behind the visits of some nodes, if the thread goes on. -/
def visitAll? (phase : Phase) (thread : String) (ids : List NodeId) (g : Graph σ ω) :
    Option (Graph σ ω) :=
  ids.foldlM (visit? phase thread) g

/-- The graph behind a cycle that comes to its end. -/
def cycle? (g : Graph σ ω) (run : Run) : Option (Graph σ ω) :=
  (visitAll? .reset (g.threadName run.subgraph) run.order g).bind
    (visitAll? .process (g.threadName run.subgraph) run.order)

omit [Behaviour σ ω] in
theorem slot?_called_self (hslot : g.slot? id = some slot) (scene : Scene PortRef ω)
    (role : Role σ) : (g.called id scene role).slot? id =
      some { slot with node := ⟨scene.ports, role⟩ } := by
  rw [slot?_called, if_pos rfl, hslot]
  rfl

theorem snd_reportEnding (hslot : g.slot? id = some slot) (phase : Phase)
    (ending : Except Stop Unit) :
    (g.reportEnding phase thread id ending).2 = slot.node.role.goesOn thread ending := by
  unfold reportEnding
  rw [hslot]
  cases ending with
  | ok done => rfl
  | error stop =>
    dsimp only [Role.goesOn]
    cases (slot.node.role.naming thread).panic <;> rfl

/-- A visit is a call behind which the thread goes on. -/
theorem visit?_eq (phase : Phase) (thread : String) (g : Graph σ ω) (id : NodeId) :
    visit? phase thread g id =
      if ((g.call phase (some thread) id).1.reportEnding phase thread id
          (g.call phase (some thread) id).2.1).2 then
        some (g.call phase (some thread) id).1 else none := by
  unfold visit?
  cases hslot : g.slot? id with
  | none =>
    rw [call_eq_self hslot]
    rfl
  | some slot =>
    rw [call_eq hslot]
    dsimp only
    rw [snd_reportEnding (slot?_called_self hslot _ _)]

theorem visitAll?_cons (phase : Phase) (thread : String) (id : NodeId) (ids : List NodeId)
    (g : Graph σ ω) : visitAll? phase thread (id :: ids) g =
      (visit? phase thread g id).bind (visitAll? phase thread ids) :=
  rfl

theorem visitAll?_append (phase : Phase) (thread : String) (ids ids' : List NodeId)
    (g : Graph σ ω) : visitAll? phase thread (ids ++ ids') g =
      (visitAll? phase thread ids g).bind (visitAll? phase thread ids') :=
  List.foldlM_append

/-- Visits are calls behind all of which the thread goes on. -/
theorem visitAll?_eq (phase : Phase) (thread : String) (ids : List NodeId) (g : Graph σ ω) :
    visitAll? phase thread ids g = if (callAll phase thread ids g).2.2 then
      some (callAll phase thread ids g).1 else none := by
  induction ids generalizing g with
  | nil => rfl
  | cons id ids ih =>
    rw [visitAll?_cons, visit?_eq]
    unfold callAll
    dsimp only
    split
    · exact ih _
    · rfl

/-- A cycle that comes to its end resets and then processes all nodes. -/
theorem cycle?_eq (g : Graph σ ω) (run : Run) :
    g.cycle? run = if (g.cycle run).2.2 then some (g.cycle run).1 else none := by
  unfold cycle? cycle
  rw [visitAll?_eq]
  dsimp only
  split
  · exact visitAll?_eq _ _ _ _
  · rfl

theorem slot?_visit? (h : visit? phase thread g id = some g') (hne : id ≠ other) :
    g'.slot? other = g.slot? other := by
  unfold visit? at h
  split at h
  · cases h
    rfl
  · dsimp only at h
    split at h
    · cases h
      rw [slot?_called, if_neg hne]
    · cases h

/-- A node that is not visited stays as it is. -/
theorem slot?_visitAll? (h : visitAll? phase thread ids g = some g') (hid : id ∉ ids) :
    g'.slot? id = g.slot? id := by
  induction ids generalizing g with
  | nil =>
    cases h
    rfl
  | cons first ids ih =>
    obtain ⟨between, hfirst, hrest⟩ := Option.bind_eq_some_iff.1 h
    rw [List.mem_cons, not_or] at hid
    exact (ih hrest hid.2).trans (slot?_visit? hfirst (Ne.symm hid.1))

/-- A visit of a node that is there leaves what its call left. -/
theorem visit?_eq_some (h : visit? phase thread g id = some g') (hslot : g.slot? id = some slot) :
    g' = g.called id (g.performed phase (some thread) slot.node).2.1
      (g.performed phase (some thread) slot.node).1.2 := by
  unfold visit? at h
  rw [hslot] at h
  dsimp only at h
  split at h
  · exact (Option.some.inj h).symm
  · cases h

/-- Nodes are called once, unless the thread dies before. -/
theorem callAll_cases (hnodup : ids.Nodup) (phase : Phase) (thread : String) (g : Graph σ ω)
    (id : NodeId) :
    (callAll phase thread ids g).1.slot? id = g.slot? id ∧
        (id ∈ ids → (callAll phase thread ids g).2.2 = false) ∨
      ∃ between : Graph σ ω, between.slot? id = g.slot? id ∧
        (callAll phase thread ids g).1.slot? id =
          (between.call phase (some thread) id).1.slot? id := by
  induction ids generalizing g with
  | nil => exact .inl ⟨rfl, nofun⟩
  | cons first ids ih =>
    obtain ⟨hfirst, hnodup⟩ := List.nodup_cons.1 hnodup
    unfold callAll
    dsimp only
    by_cases heq : first = id
    · subst heq
      right
      refine ⟨g, rfl, ?_⟩
      split
      · have hrest : Steps (· ∈ ids) (g.call phase (some thread) first).1
            (callAll phase thread ids (g.call phase (some thread) first).1).1 :=
          steps_callAll phase thread (fun _ hid ↦ hid) _
        exact hrest.slot?_eq hfirst
      · rfl
    · have hsame := slot?_call g phase (some thread) heq
      split
      · rcases ih hnodup (g.call phase (some thread) first).1 with
          ⟨hslot, hdead⟩ | ⟨between, hbetween, hslot⟩
        · refine .inl ⟨hslot.trans hsame, fun hid ↦ hdead ?_⟩
          exact (List.mem_cons.1 hid).resolve_left (Ne.symm heq)
        · exact .inr ⟨between, hbetween.trans hsame, hslot⟩
      · exact .inl ⟨hsame, fun _ ↦ rfl⟩

def storedAt (g : Graph σ ω) (ref : PortRef) : Option ((t : Control.Storage) × t.Carrier) :=
  (g.slot? ref.node).bind fun slot ↦ stored slot.node.ports ref.port

omit [Behaviour σ ω] in
theorem storedAt_congr {ref : PortRef} (h : g'.slot? ref.node = g.slot? ref.node) :
    g'.storedAt ref = g.storedAt ref := by
  rw [storedAt, h, storedAt]

/-- Calls that do not set a control leave what it stores, and the node with a role that they may
leave it with. -/
theorem stored_callAll {reach : Reach} (post : Role σ → Prop) {port : Nat} (hnodup : ids.Nodup)
    (hslot : g.slot? id = some slot)
    (hwithin : (slot.node.role.perform phase (some thread)).Within reach fun r ↦ post r.2)
    (hport : ¬ reach.sets port) :
    ∃ slot', (callAll phase thread ids g).1.slot? id = some slot' ∧
      stored slot'.node.ports port = stored slot.node.ports port ∧
      (id ∈ ids → (callAll phase thread ids g).2.2 = true → post slot'.node.role) := by
  rcases callAll_cases hnodup phase thread g id with ⟨hsame, hdead⟩ | ⟨between, hbetween, hcall⟩
  · refine ⟨slot, hsame.trans hslot, rfl, fun hmem halive ↦ ?_⟩
    rw [hdead hmem] at halive
    cases halive
  · rw [hslot] at hbetween
    rw [call_eq hbetween, slot?_called_self hbetween] at hcall
    refine ⟨_, hcall, ?_, fun _ _ ↦ ?_⟩
    · exact hwithin.stored_run hport ⟨slot.node.ports, between.queues⟩
    · exact hwithin.post_run ⟨slot.node.ports, between.queues⟩

/-- A control that the calls of its node in a cycle do not set stores the same behind the cycle. -/
theorem storedAt_advance {run : Run} {ref : PortRef} {reach : Reach} (hnodup : run.order.Nodup)
    (hslot : g.slot? ref.node = some slot)
    (hwithin : slot.node.role.CycleWithin reach (some (g.threadName run.subgraph)))
    (hport : ¬ reach.sets ref.port) : (g.advance run).1.storedAt ref = g.storedAt ref := by
  by_cases hmem : ref.node ∈ run.order
  · have hcycle : (g.cycle run).1.storedAt ref = g.storedAt ref := by
      obtain ⟨reset, hreset, hstored, hrole⟩ := stored_callAll (fun role ↦
        (role.perform .process (some (g.threadName run.subgraph))).Within reach fun _ ↦ True)
        hnodup hslot hwithin hport
      unfold cycle
      dsimp only
      split
      · next halive =>
        obtain ⟨processed, hprocessed, hstored', -⟩ := stored_callAll (fun _ ↦ True)
          hnodup hreset (hrole hmem halive) hport
        rw [storedAt, hprocessed, storedAt, hslot]
        exact hstored'.trans hstored
      · rw [storedAt, hreset, storedAt, hslot]
        exact hstored
    unfold advance
    split
    · rfl
    · split
      · rfl
      · dsimp only
        split
        · exact hcycle
        · exact hcycle
  · exact storedAt_congr ((steps_advance g run).slot?_eq hmem)

end Graph

end SignalFlow
