import SignalFlow.Demo.Node
import SignalFlow.Proofs.Graph.InPlace

/-!
# Connections of a node with itself

A node cannot feed itself. Of the five requests that can ask for it two name the ports, and these
are refused for what they ask. The other three look for the first output and the first input of the
node before they compare the ends, so that a node without one of the two is refused for the port
that it does not have. Nothing is changed in either case.
-/

namespace SignalFlow

/-- A node that has a port of a kind. -/
def Node.HasPort {σ ω : Type} (n : Node σ ω) (kind : PortKind) : Prop :=
  ∃ p ∈ n.ports, p.kind = kind

theorem Node.firstPort_eq_error {σ ω : Type} {n : Node σ ω} {kind : PortKind}
    (h : ¬ n.HasPort kind) : n.firstPort kind = .error (.noPortOfKind kind) := by
  have hnone : n.ports.findIdx? (·.kind = kind) = none :=
    List.findIdx?_eq_none_iff.2 fun p hp ↦ decide_eq_false fun hkind ↦ h ⟨p, hp, hkind⟩
  rw [firstPort, hnone]

theorem Node.exists_firstPort {σ ω : Type} {n : Node σ ω} {kind : PortKind} (h : n.HasPort kind) :
    ∃ index, n.firstPort kind = .ok index := by
  unfold firstPort
  cases hfind : n.ports.findIdx? (·.kind = kind) with
  | some index => exact ⟨index, rfl⟩
  | none =>
    obtain ⟨p, hp, hkind⟩ := h
    exact absurd hkind (of_decide_eq_false (List.findIdx?_eq_none_iff.1 hfind p hp))

namespace Graph

variable {σ ω β : Type} {g : Graph σ ω} {slot : Slot σ ω} {a : NodeId} {kind : PortKind}
  {source target : PortRef} {e : GraphError}

theorem node_of_slot (hslot : g.slot? a = some slot) (hhome : slot.available = true) :
    g.node a = .ok slot.node := by
  simp [node, hslot, hhome]

theorem defaultPort_away (hslot : g.slot? a = some slot) (haway : slot.available = false) :
    g.defaultPort a kind = .error (.nodeUnavailable a) := by
  have hnode : g.node a = .error (.nodeUnavailable a) := by simp [node, hslot, haway]
  rw [defaultPort, hnode]
  rfl

theorem defaultPort_home (hslot : g.slot? a = some slot) (hhome : slot.available = true) :
    g.defaultPort a kind = match slot.node.firstPort kind with
      | .ok index => .ok ⟨a, index⟩
      | .error fault => .error (.port ⟨a, 0⟩ fault) := by
  rw [defaultPort, node_of_slot hslot hhome]
  rfl

/-- A node without a port of the kind is blamed at its port zero. -/
theorem defaultPort_missing (hslot : g.slot? a = some slot) (hhome : slot.available = true)
    (hport : ¬ slot.node.HasPort kind) :
    g.defaultPort a kind = .error (.port ⟨a, 0⟩ (.noPortOfKind kind)) := by
  rw [defaultPort_home hslot hhome, Node.firstPort_eq_error hport]

theorem exists_defaultPort (hslot : g.slot? a = some slot) (hhome : slot.available = true)
    (hport : slot.node.HasPort kind) : ∃ index, g.defaultPort a kind = .ok ⟨a, index⟩ := by
  obtain ⟨index, hindex⟩ := Node.exists_firstPort hport
  exact ⟨index, by rw [defaultPort_home hslot hhome, hindex]⟩

/-- A request to connect a node with itself, and whether it names the ports. -/
inductive Request.IsSelf (a : NodeId) : Request → (named : Bool) → Prop
  | connect : IsSelf a (.connect a a) false
  | connectPorts (output input : Nat) : IsSelf a (.connectPorts ⟨a, output⟩ ⟨a, input⟩) true
  | connectQueued : IsSelf a (.connectQueued a a) false
  | connectQueuedWithCapacity (capacity : Nat) :
    IsSelf a (.connectQueuedWithCapacity a a capacity) false
  | connectQueuedPorts (output input capacity : Nat) :
    IsSelf a (.connectQueuedPorts ⟨a, output⟩ ⟨a, input⟩ capacity) true

/-- What a request of a node with itself is refused for. Only one that names the ports does not ask
for the node first. -/
inductive SelfRefusal (slot : Slot σ ω) (a : NodeId) : (named : Bool) → GraphError → Prop
  | named : SelfRefusal slot a true (.badTopology (.selfConnection a))
  | away (haway : slot.available = false) : SelfRefusal slot a false (.nodeUnavailable a)
  | noOutput (hhome : slot.available = true) (houtput : ¬ slot.node.HasPort .output) :
    SelfRefusal slot a false (.port ⟨a, 0⟩ (.noPortOfKind .output))
  | noInput (hhome : slot.available = true) (houtput : slot.node.HasPort .output)
      (hinput : ¬ slot.node.HasPort .input) :
    SelfRefusal slot a false (.port ⟨a, 0⟩ (.noPortOfKind .input))
  | found (hhome : slot.available = true) (houtput : slot.node.HasPort .output)
      (hinput : slot.node.HasPort .input) :
    SelfRefusal slot a false (.badTopology (.selfConnection a))

/-- The connection with itself is what is reported exactly if the ports are named or found. -/
theorem SelfRefusal.eq_selfConnection_iff {named : Bool} (h : SelfRefusal slot a named e) :
    e = .badTopology (.selfConnection a) ↔ named = true ∨
      slot.available = true ∧ slot.node.HasPort .output ∧ slot.node.HasPort .input := by
  cases h with
  | named => simp
  | away haway => simp [haway]
  | noOutput hhome houtput => simp [houtput]
  | noInput hhome houtput hinput => simp [hinput]
  | found hhome houtput hinput => simp [hhome, houtput, hinput]

/-- A program that asks for the usual ports of a node, and then refuses to connect the node with
itself. -/
theorem exists_selfRefusal (hslot : g.slot? a = some slot)
    {rest : PortRef → PortRef → Except GraphError β}
    (hrest : ∀ output input,
      rest ⟨a, output⟩ ⟨a, input⟩ = .error (.badTopology (.selfConnection a))) :
    ∃ e, (g.defaultPort a .output >>= fun output ↦ g.defaultPort a .input >>= fun input ↦
      rest output input) = .error e ∧ SelfRefusal slot a false e := by
  by_cases hhome : slot.available = true
  · by_cases houtput : slot.node.HasPort .output
    · obtain ⟨output, hfirst⟩ := exists_defaultPort hslot hhome houtput
      rw [hfirst]
      by_cases hinput : slot.node.HasPort .input
      · obtain ⟨input, hsecond⟩ := exists_defaultPort hslot hhome hinput
        rw [hsecond]
        exact ⟨_, hrest output input, .found hhome houtput hinput⟩
      · rw [defaultPort_missing hslot hhome hinput]
        exact ⟨_, rfl, .noInput hhome houtput hinput⟩
    · rw [defaultPort_missing hslot hhome houtput]
      exact ⟨_, rfl, .noOutput hhome houtput⟩
  · rw [defaultPort_away hslot (Bool.eq_false_iff.2 hhome)]
    exact ⟨_, rfl, .away (Bool.eq_false_iff.2 hhome)⟩

theorem connectPorts_self (hstopped : g.isRunning = false) (hself : source.node = target.node) :
    g.connectPorts source target = .error (.badTopology (.selfConnection source.node)) := by
  rw [connectPorts, ensureStopped_eq_ok_iff.2 hstopped, attached, if_pos hself]
  rfl

theorem checkQueue_self (a : NodeId) : g.checkQueue a a = .error (.selfConnection a) := by
  rw [checkQueue, if_pos rfl]
  rfl

section Behaved

variable [Behaviour σ ω] {capacity : Nat} {request : Request} {named : Bool}

theorem connectQueuedPorts_self (hstopped : g.isRunning = false)
    (hself : source.node = target.node) : g.connectQueuedPorts source target capacity =
      .error (.badTopology (.selfConnection source.node)) := by
  rw [connectQueuedPorts, ensureStopped_eq_ok_iff.2 hstopped, ← hself, checkQueue_self]
  rfl

theorem exists_connectQueuedWithCapacity_self (hstopped : g.isRunning = false)
    (hslot : g.slot? a = some slot) (capacity : Nat) :
    ∃ e, g.connectQueuedWithCapacity a a capacity = .error e ∧ SelfRefusal slot a false e := by
  rw [connectQueuedWithCapacity, ensureStopped_eq_ok_iff.2 hstopped]
  exact exists_selfRefusal hslot fun output input ↦ connectQueuedPorts_self hstopped rfl

theorem Request.IsSelf.exists_result (hself : request.IsSelf a named)
    (hstopped : g.isRunning = false) (hslot : g.slot? a = some slot) :
    ∃ e, request.result g = .error e ∧ SelfRefusal slot a named e := by
  simp only [Request.result]
  cases hself with
  | connect =>
    simp only [map_eq_error_iff]
    rw [Graph.connect, ensureStopped_eq_ok_iff.2 hstopped]
    exact exists_selfRefusal hslot fun output input ↦ connectPorts_self hstopped rfl
  | connectPorts output input =>
    exact ⟨_, map_eq_error_iff.2 (connectPorts_self hstopped rfl), .named⟩
  | connectQueued =>
    simp only [map_eq_error_iff]
    exact exists_connectQueuedWithCapacity_self hstopped hslot g.options.queueCapacity
  | connectQueuedWithCapacity capacity =>
    simp only [map_eq_error_iff]
    exact exists_connectQueuedWithCapacity_self hstopped hslot capacity
  | connectQueuedPorts output input capacity =>
    exact ⟨_, map_eq_error_iff.2 (connectQueuedPorts_self hstopped rfl), .named⟩

open InPlace

/-- The checks in front of a queue refuse a node with itself on any graph, be it consistent or
not. -/
theorem exec_connectQueuedPorts_self (hstopped : g.isRunning = false)
    (hself : source.node = target.node) (capacity : Nat) :
    (InPlace.connectQueuedPorts source target capacity).exec g =
      settle g (g.connectQueuedPorts source target capacity) := by
  rw [connectQueuedPorts_self hstopped hself, InPlace.connectQueuedPorts, exec_bind,
    exec_checkBridge, ensureStopped_eq_ok_iff.2 hstopped, ← hself, checkQueue_self]
  rfl

theorem exec_connectQueuedWithCapacity_self (hstopped : g.isRunning = false) (a : NodeId)
    (capacity : Nat) : (InPlace.connectQueuedWithCapacity a a capacity).exec g =
      settle g (g.connectQueuedWithCapacity a a capacity) := by
  unfold InPlace.connectQueuedWithCapacity Graph.connectQueuedWithCapacity
  refine exec_guard (exec_look _ g) fun _ _ ↦ exec_guard (exec_look _ g) fun output houtput ↦ ?_
  refine exec_guard (exec_look _ g) fun input hinput ↦ ?_
  have hself : output.node = input.node :=
    (node_of_defaultPort houtput).trans (node_of_defaultPort hinput).symm
  exact exec_connectQueuedPorts_self hstopped hself capacity

theorem Request.IsSelf.exec_program (hself : request.IsSelf a named)
    (hstopped : g.isRunning = false) : request.program.exec g = settle g (request.result g) := by
  cases hself with
  | connect => exact exec_map_none (exec_connect a a g)
  | connectPorts output input => exact exec_map_none (exec_connectPorts _ _ g)
  | connectQueued =>
    refine exec_map_some ?_
    rw [InPlace.connectQueued, exec_bind, exec_look]
    exact exec_connectQueuedWithCapacity_self hstopped a g.options.queueCapacity
  | connectQueuedWithCapacity capacity =>
    exact exec_map_some (exec_connectQueuedWithCapacity_self hstopped a capacity)
  | connectQueuedPorts output input capacity =>
    have hself : (⟨a, output⟩ : PortRef).node = (⟨a, input⟩ : PortRef).node := rfl
    exact exec_map_some (exec_connectQueuedPorts_self hstopped hself capacity)

/-- A stopped graph refuses every connection of a node with itself, and is left as it was. What is
reported is the connection with itself exactly if the request names the ports, or if the node is at
home and has both an output and an input. -/
theorem self_connections_are_refused (hself : request.IsSelf a named)
    (hstopped : g.isRunning = false) (hslot : g.slot? a = some slot) :
    ∃ e, request.result g = .error e ∧ request.program.exec g = (.error e, g) ∧
      SelfRefusal slot a named e ∧ (e = .badTopology (.selfConnection a) ↔ named = true ∨
        slot.available = true ∧ slot.node.HasPort .output ∧ slot.node.HasPort .input) := by
  obtain ⟨e, hresult, hrefusal⟩ := hself.exists_result hstopped hslot
  refine ⟨e, hresult, ?_, hrefusal, hrefusal.eq_selfConnection_iff⟩
  rw [hself.exec_program hstopped, hresult]
  rfl

end Behaved

/-- A tone source on its own, which has an output and no input. -/
def loneTone : Graph Demo.Node Empty :=
  let zero := Numeric.Binary.zero Numeric.binary64 false
  ((empty .standard).add (Demo.Tone.ports zero) (.tone (.ofRate 48000 64))).2

/-- The tone source refuses to be connected with itself by its first ports. -/
theorem loneTone_refuses : loneTone.isRunning = false ∧ ∃ slot, loneTone.slot? ⟨0⟩ = some slot ∧
    ∃ e, (Request.connect ⟨0⟩ ⟨0⟩).result loneTone = .error e ∧
      (Request.connect ⟨0⟩ ⟨0⟩).program.exec loneTone = (.error e, loneTone) ∧
      SelfRefusal slot ⟨0⟩ false e ∧ (e = .badTopology (.selfConnection ⟨0⟩) ↔ false = true ∨
        slot.available = true ∧ slot.node.HasPort .output ∧ slot.node.HasPort .input) :=
  ⟨rfl, _, rfl, self_connections_are_refused .connect rfl rfl⟩

/-- The tone source is refused for its missing input, and only if the ports are named for the
connection with itself. -/
theorem loneTone_lacks_input : loneTone.isRunning = false ∧ loneTone.nodeCount = 1 ∧
    loneTone.connect ⟨0⟩ ⟨0⟩ = .error (.port ⟨⟨0⟩, 0⟩ (.noPortOfKind .input)) ∧
    loneTone.connectQueued ⟨0⟩ ⟨0⟩ = .error (.port ⟨⟨0⟩, 0⟩ (.noPortOfKind .input)) ∧
    loneTone.connectPorts ⟨⟨0⟩, 0⟩ ⟨⟨0⟩, 0⟩ = .error (.badTopology (.selfConnection ⟨0⟩)) :=
  ⟨rfl, rfl, rfl, rfl, rfl⟩

end Graph

end SignalFlow
