import SignalFlow.Proofs.Graph.Motions
import SignalFlow.Proofs.Graph.Steps

/-!
# Bound controls stay controls

A name is bound to a control port of the storage type that it is bound as. Calls, values from
outside and connections keep the kinds and types of ports. So unless somebody exchanges the ports
of a node, what was bound, what a handle has and what is on its way to the node is for controls
that are there.
-/

namespace SignalFlow

open Control

/-- A value that is not converted is of the wrong type. -/
theorem Control.Storage.typeMismatch_of_ofValue {storage : Storage} {value : Value} {fault : Fault}
    (h : storage.ofValue value = .error fault) :
    ∃ expected found, fault = .typeMismatch expected found := by
  refine ⟨storage.kind, value.kind, ?_⟩
  cases storage <;> cases value <;> cases h <;> rfl

/-- Every fault of a control that is there lies in the value that it was to take. -/
theorem Binding.fault_of_apply {κ ω : Type} {b : Binding} {ports : List (Port κ ω)} {value : Value}
    {fault : Fault} (hcontrol : (shapes ports)[b.port]? = some (.control b.storage))
    (hfault : (b.apply ports value).2.2 = .error fault) :
    (∃ expected found, fault = .typeMismatch expected found) ∨
      ∃ message, fault = .panicked message := by
  rw [apply_eq_of_control hcontrol] at hfault
  split at hfault
  · next refused haccept =>
    obtain rfl : refused = fault := by simpa using hfault
    unfold accept at haccept
    cases hvalue : b.storage.ofValue value with
    | error refused' =>
      rw [hvalue] at haccept
      cases haccept
      exact .inl (Storage.typeMismatch_of_ofValue hvalue)
    | ok data =>
      simp only [hvalue, Bind.bind, Except.bind] at haccept
      split at haccept
      · cases haccept
      · split at haccept
        · cases haccept
        · cases haccept
          exact .inr ⟨_, rfl⟩
  · dsimp only at hfault
    split at hfault
    · cases hfault
    · cases hfault
      exact .inr ⟨_, rfl⟩

namespace Graph

variable {σ ω : Type} {g g' : Graph σ ω} {t : Topology} {taken : List Handle}
  {source target ref : PortRef} {shape : Frame PortRef} {b : Binding} {node : NodeId}

/-- The binding is for a control port of its storage type. -/
def Targets (g : Graph σ ω) (b : Binding) : Prop :=
  g.shapeOf ⟨b.node, b.port⟩ = some (.control b.storage)

theorem targets_of_bind_ok {name : String} {storage : Storage}
    {validator : Option (Validator storage)} (h : g.bind ref name storage validator = .ok g') :
    g.Targets ⟨ref.node, ref.port, storage, validator⟩ := by
  unfold bind at h
  simp only [Bind.bind, Except.bind, ite_error_eq_ok_iff] at h
  obtain ⟨n, hn, hport⟩ := bind_eq_ok_iff.1 h.2
  unfold Graph.node at hn
  split at hn
  · cases hn
  · next slot hslot =>
    split at hn
    · cases hn
      split at hport
      · cases hport
      · next c hc =>
        split at hport
        · next hstorage =>
          subst hstorage
          rw [Targets, shapeOf, hslot, Option.bind_some]
          exact shape_of_control hc
        · cases hport
      · cases hport
    · cases hn

/-- A connection changes no more of what is seen than attaching the input does. -/
theorem seen_connectPorts {β : Type} {see : Node σ ω → β}
    (h : g.connectPorts source target = .ok g')
    (hsee : ∀ (n : Node σ ω) (i : Input PortRef) (port : Nat), n.ports[port]? = some (.input i) →
      ∀ source, see { n with ports := n.ports.set port (.input { i with source }) } = see n) :
    seen see g' = seen see g := by
  obtain ⟨-, i, hi, -, rfl⟩ := connectPorts_eq_ok_iff.1 h
  obtain ⟨type, hfits, rfl⟩ := attached_eq_ok_iff_fits.1 hi
  obtain ⟨slot, hslot, -, hport⟩ := port_eq_ok_iff.1 hfits.input
  have hwire : seen see (g.wire target ⟨type, some source⟩) = seen see g := by
    refine seen_modifySlot g target.node fun slot' hslot' ↦ ?_
    obtain rfl : slot' = slot := Option.some.inj (hslot'.symm.trans hslot)
    exact hsee slot'.node _ target.port hport (some source)
  exact hwire

theorem shapeOf_connectPorts (h : g.connectPorts source target = .ok g') :
    g'.shapeOf = g.shapeOf :=
  shapeOf_congr (seen_connectPorts h fun _ _ _ hport _ ↦ shapes_set hport rfl)

variable [Behaviour σ ω]

theorem shapeOf_push (g : Graph σ ω) (ports : List (PortSpec ω)) (role : Role σ)
    (h : g.shapeOf ref = some shape) : (g.push ports role).2.shapeOf ref = some shape := by
  obtain ⟨slot, hslot, -⟩ := Option.bind_eq_some_iff.1 h
  have hlt : ref.node.index < g.nodeCount := (List.getElem?_eq_some_iff.1 hslot).1
  rwa [shapeOf, slot?_push hlt]

theorem shapeOf_connectQueuedPorts {capacity : Nat} {queue : QueueId}
    (hok : g.connectQueuedPorts source target capacity = .ok (queue, g'))
    (h : g.shapeOf ref = some shape) : g'.shapeOf ref = some shape := by
  obtain ⟨-, -, -, -, type, g₁, g₂, hwriter, hreader, producer, consumer, -, -, rfl⟩ :=
    connectQueuedPorts_eq_ok hok
  have hadapters : (g.withAdapters type capacity).shapeOf ref = some shape :=
    shapeOf_push _ _ _ (shapeOf_push (g.addQueue type capacity).2 _ _ h)
  change g₂.shapeOf ref = some shape
  rwa [shapeOf_connectPorts hreader, shapeOf_connectPorts hwriter]

/-- Whether an operation leaves the kinds and types of the ports of a node alone. -/
def Operation.KeepsPorts (g : Graph σ ω) (node : NodeId) : Operation σ ω → Prop
  | .access id ports _ => id = node → ∀ slot, g.slot? id = some slot →
    shapes (ports slot.node.ports) = shapes slot.node.ports
  | _ => True

/-- A port of a node keeps its kind and type unless somebody exchanges the ports of the node. -/
theorem Operation.shapeOf_apply {operation : Operation σ ω}
    (hkeeps : operation.KeepsPorts g ref.node) (h : g.shapeOf ref = some shape) :
    (operation.apply g).shapeOf ref = some shape := by
  rcases operation.apply_cases g with ⟨hmade, -⟩ | ⟨attempt, c, -, hok⟩
  · have haccess : ∀ ports state, operation = .access ref.node ports state → ∀ slot,
        g.slot? ref.node = some slot → shapes (ports slot.node.ports) = shapes slot.node.ports := by
      rintro ports state rfl
      exact hkeeps rfl
    rcases lasts_shapes.apply hmade haccess with ⟨ports, state, rfl⟩ | hsame
    · exact shapeOf_push g ports (.custom state) h
    · rwa [shapeOf_eq_seen, hsame, ← shapeOf_eq_seen]
  · rcases attempt.result_cases hok with
      ⟨source, target, -, hports⟩ | ⟨source, target, capacity, queue, -, hports⟩
    · rwa [shapeOf_connectPorts hports]
    · exact shapeOf_connectQueuedPorts hports h

theorem bindings_start (g : Graph σ ω) (spawner : Spawner) :
    (g.start spawner).1.bindings = g.bindings := by
  by_cases hrunning : g.isRunning = true
  · rw [start_of_running hrunning]
  · have hstopped : g.runs = none := by simpa [isRunning] using hrunning
    exact (works_start hstopped spawner).bindings

theorem bindings_iterate (g : Graph σ ω) (run : Run) : (g.iterate run).1.bindings = g.bindings := by
  by_cases halive : run.alive = true
  · exact (works_iterate halive).bindings
  · rw [iterate, if_pos (by simpa using halive)]

/-- Whether an operation leaves what is bound alone. -/
def Operation.KeepsBindings : Operation σ ω → Prop
  | .bind _ _ _ _ | .unbindAll => False
  | _ => True

theorem Operation.bindings_apply (g : Graph σ ω) {operation : Operation σ ω}
    (hkeeps : operation.KeepsBindings) : (operation.apply g).bindings = g.bindings := by
  cases operation with
  | bind ref name storage validator => exact hkeeps.elim
  | unbindAll => exact hkeeps.elim
  | connect attempt =>
    rcases Operation.connect_cases g attempt with ⟨-, hsame⟩ | ⟨c, -, hok⟩
    · rw [hsame]
    · exact (attempt.kept_of_ok hok).2.2.1
  | call phase id =>
    simp only [apply]
    split
    · exact (Works.call g phase none id).bindings
    · rfl
  | access id ports state =>
    simp only [apply]
    split <;> rfl
  | start spawner => exact bindings_start g spawner
  | iterate s =>
    simp only [apply]
    cases g.run? s with
    | none => rfl
    | some run => exact bindings_iterate g run
  | stop => exact g.works_stop.bindings
  | add _ _ | addQueue _ _ | changeQueue _ _ | post _ | postThrough _ _ => rfl

/-- What is bound after an operation was bound before, or is for a control. -/
theorem Operation.targets_or_mem_boundTo {operation : Operation σ ω} {name : String}
    (h : b ∈ (operation.apply g).boundTo name) : b ∈ g.boundTo name ∨ g.Targets b := by
  cases operation with
  | bind ref other storage validator =>
    rcases Operation.bind_cases g ref other storage validator with hsame | ⟨hok, hbound⟩
    · rw [hsame] at h
      exact .inl h
    · rw [hbound, Graph.boundTo, Graph.bound, NameMap.get?_insert] at h
      split at h
      · next heq =>
        subst heq
        rw [Option.getD_some, List.mem_append, List.mem_singleton] at h
        rcases h with h | rfl
        · exact .inl h
        · exact .inr (targets_of_bind_ok hok)
      · exact .inl h
  | unbindAll =>
    rcases Operation.unbindAll_cases g with hsame | ⟨-, hunbound⟩
    · rw [hsame] at h
      exact .inl h
    · rw [hunbound] at h
      cases h
  | _ =>
    rw [Graph.boundTo, Operation.bindings_apply g] at h
    · exact .inl h
    · trivial

end Graph

end SignalFlow
