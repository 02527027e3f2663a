import SignalFlow.Proofs.Graph.Connecting
import SignalFlow.Proofs.Graph.Work

/-!
# Ports before and after a connection

What a check looks up is at the ports of the two ends. A new node leaves all other ports as they
are, and wiring an input changes that input only. So a connection that fits goes on to fit until
its own input is wired.
-/

namespace SignalFlow

theorem Input.attach_eq_ok_iff {κ : Type} {i j : Input κ} {source : κ} {found : DataType} :
    j.attach source found = .ok i ↔ j = .ofType found ∧ i = ⟨found, some source⟩ := by
  obtain ⟨type, attached⟩ := j
  unfold attach isConnected ofType
  simp only [ite_error_eq_ok_iff, Except.ok.injEq, Input.mk.injEq]
  cases attached with
  | none => simp [eq_comm]; aesop
  | some _ => simp

namespace Graph

variable {σ ω : Type} {g g' : Graph σ ω} {ref source target : PortRef}

theorem port_eq_ok_iff {p : Port PortRef ω} : g.port ref = .ok p ↔
    ∃ slot, g.slot? ref.node = some slot ∧ slot.available = true ∧
      slot.node.ports[ref.port]? = some p := by
  unfold port node
  cases g.slot? ref.node with
  | none => simp [Bind.bind, Except.bind]
  | some slot =>
    by_cases havailable : slot.available
    · cases hport : slot.node.ports[ref.port]? <;>
        simp [Bind.bind, Except.bind, havailable, hport]
    · simp [Bind.bind, Except.bind, havailable]

theorem output_eq_ok_iff {o : Output} : g.output ref = .ok o ↔ g.port ref = .ok (.output o) := by
  unfold output
  rw [bind_eq_ok_iff]
  constructor
  · rintro ⟨p, hp, h⟩
    cases p with
    | output o' => cases h; exact hp
    | input i => cases h
    | control c => cases h
  · intro h
    exact ⟨_, h, rfl⟩

theorem input_eq_ok_iff {i : Input PortRef} :
    g.input ref = .ok i ↔ g.port ref = .ok (.input i) := by
  unfold input
  rw [bind_eq_ok_iff]
  constructor
  · rintro ⟨p, hp, h⟩
    cases p with
    | input i' => cases h; exact hp
    | output o => cases h
    | control c => cases h
  · intro h
    exact ⟨_, h, rfl⟩

/-- An output can be attached to an input of its type that is free, on another node. -/
structure Fits (g : Graph σ ω) (source target : PortRef) (type : DataType) : Prop where
  ne : source.node ≠ target.node
  output : ∃ value, g.port source = .ok (.output ⟨type, value⟩)
  input : g.port target = .ok (.input (.ofType type))

theorem attached_eq_ok_iff_fits {i : Input PortRef} : g.attached source target = .ok i ↔
    ∃ type, g.Fits source target type ∧ i = ⟨type, some source⟩ := by
  simp only [attached_eq_ok_iff, output_eq_ok_iff, input_eq_ok_iff, Input.attach_eq_ok_iff]
  constructor
  · rintro ⟨hne, ⟨type, value⟩, j, ho, hj, rfl, rfl⟩
    exact ⟨type, ⟨hne, ⟨value, ho⟩, hj⟩, rfl⟩
  · rintro ⟨type, ⟨hne, ⟨value, ho⟩, hj⟩, rfl⟩
    exact ⟨hne, ⟨type, value⟩, _, ho, hj, rfl, rfl⟩

theorem exists_attached_iff :
    (∃ i, g.attached source target = .ok i) ↔ ∃ type, g.Fits source target type := by
  simp only [attached_eq_ok_iff_fits]
  constructor
  · rintro ⟨i, type, h, -⟩
    exact ⟨type, h⟩
  · rintro ⟨type, h⟩
    exact ⟨_, type, h, rfl⟩

section Push

variable [Behaviour σ ω] {ports : List (PortSpec ω)} {role : Role σ}

theorem slot?_push {id : NodeId} (h : id.index < g.nodeCount) :
    (g.push ports role).2.slot? id = g.slot? id :=
  List.getElem?_append_left h

/-- A new node leaves the ports of all others alone. -/
theorem port_push {p : Port PortRef ω} (h : g.port ref = .ok p) :
    (g.push ports role).2.port ref = .ok p := by
  have hlt := lt_of_port h
  rw [port_eq_ok_iff] at h ⊢
  rwa [slot?_push hlt]

theorem port_push_new (g : Graph σ ω) (ports : List (PortSpec ω)) (role : Role σ) {k : Nat}
    {spec : PortSpec ω} (h : ports[k]? = some spec) :
    (g.push ports role).2.port ⟨⟨g.nodeCount⟩, k⟩ = .ok spec.port := by
  rw [port_eq_ok_iff]
  refine ⟨⟨role.name, .ofSpecs ports role, true⟩, ?_, rfl, ?_⟩
  · exact List.getElem?_concat_length
  · simp [Node.ofSpecs, h]

end Push

/-- A port that is not the wired one is as it was. -/
theorem port_wire {i : Input PortRef} {p : Port PortRef ω} (hne : ref ≠ target)
    (h : g.port ref = .ok p) : (g.wire target i).port ref = .ok p := by
  rw [port_eq_ok_iff] at h ⊢
  obtain ⟨slot, hslot, havailable, hport⟩ := h
  by_cases hnode : target.node = ref.node
  · have hindex : target.port ≠ ref.port := by
      intro heq
      apply hne
      obtain ⟨_, _⟩ := ref
      obtain ⟨_, _⟩ := target
      simp only at hnode heq
      rw [hnode, heq]
    have hwired : (g.wire target i).slot? ref.node = some { slot with
        node := { slot.node with ports := slot.node.ports.set target.port (.input i) } } := by
      rw [wire, slot?_modifyNode, if_pos hnode, hslot, Option.map_some]
    exact ⟨_, hwired, havailable, (List.getElem?_set_ne hindex).trans hport⟩
  · exact ⟨slot, by rw [wire, slot?_modifyNode, if_neg hnode, hslot], havailable, hport⟩

/-- The wired input reads its source, and all others read what they read. -/
theorem sourceOf_wire {i : Input PortRef} {p : Port PortRef ω} (h : g.port target = .ok p) :
    (g.wire target i).sourceOf ref = if ref = target then i.source else g.sourceOf ref := by
  obtain ⟨slot, hslot, -, hport⟩ := port_eq_ok_iff.1 h
  unfold sourceOf
  rw [wire, slot?_modifyNode]
  by_cases hnode : target.node = ref.node
  · rw [if_pos hnode, ← hnode, hslot, Option.map_some, Option.bind_some, Option.bind_some]
    unfold sources
    rw [List.getElem?_set]
    by_cases hindex : target.port = ref.port
    · have href : ref = target := by
        obtain ⟨_, _⟩ := ref
        obtain ⟨_, _⟩ := target
        simp only at hnode hindex
        rw [hnode, hindex]
      rw [if_pos hindex, if_pos (List.getElem?_eq_some_iff.1 hport).1, if_pos href]
      rfl
    · rw [if_neg hindex, if_neg fun href : ref = target ↦ hindex (href ▸ rfl)]
  · rw [if_neg hnode, if_neg fun href : ref = target ↦ hnode (href ▸ rfl)]

theorem sourceOf_of_port {p : Port PortRef ω} (h : g.port ref = .ok p) :
    g.sourceOf ref = p.source? := by
  obtain ⟨slot, hslot, -, hport⟩ := port_eq_ok_iff.1 h
  rw [sourceOf, hslot, Option.bind_some, sources, hport, Option.bind_some]

end Graph

end SignalFlow
