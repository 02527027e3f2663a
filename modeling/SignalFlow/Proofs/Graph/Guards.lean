import SignalFlow.Proofs.Graph.Building

/-!
# The guards are exact

Whether two ports may be connected is decided by lookups: the subgraphs of the two nodes, the queues
that feed them, and the queues between them. What these ask for is neither more nor less than that
the input is free, that it takes the data of the output, and that the topology is lawful with the
connection in it. Behind a connection the input reads the output, at once or out of the queue that
the output is written to.
-/

namespace SignalFlow

/-- An input that is free and takes the data of an output. -/
def Input.Takes {κ : Type} (i : Input κ) (o : Output) : Prop :=
  i.isConnected = false ∧ o.type = i.type

theorem Input.takes_iff {κ : Type} {i : Input κ} {o : Output} : i.Takes o ↔ i = .ofType o.type := by
  obtain ⟨type, source⟩ := i
  cases source <;> simp [Takes, isConnected, ofType, eq_comm]

namespace Graph

variable {σ ω : Type} {g g' : Graph σ ω} {t : Topology} {source target : PortRef}
  {type : DataType} {o : Output} {i : Input PortRef}

theorem fits_iff (hne : source.node ≠ target.node) (ho : g.output source = .ok o)
    (hi : g.input target = .ok i) : g.Fits source target type ↔ o.type = type ∧ i.Takes o := by
  rw [Input.takes_iff]
  rw [output_eq_ok_iff] at ho
  rw [input_eq_ok_iff] at hi
  constructor
  · intro hfits
    obtain ⟨value, hsource⟩ := hfits.output
    have hinput := hfits.input
    rw [ho, Except.ok.injEq, Port.output.injEq] at hsource
    rw [hi, Except.ok.injEq, Port.input.injEq] at hinput
    subst hsource
    exact ⟨rfl, hinput⟩
  · rintro ⟨rfl, rfl⟩
    exact ⟨hne, ⟨o.value, ho⟩, hi⟩

section Linked

variable [Behaviour σ ω]

/-- A link is made exactly if its input takes the data and the topology stays lawful. -/
theorem Consistent.exists_connectBy_iff (h : g.Consistent t) (link : Link)
    (hstopped : g.isRunning = false) (hne : link.source.node ≠ link.target.node)
    (ho : g.output link.source = .ok o) (hi : g.input link.target = .ok i) :
    (∃ g', g.connectBy link = .ok g') ↔ i.Takes o ∧ Topology.Lawful (t ++ [g.nextOf link]) := by
  simp only [h.connectBy_eq_ok_iff, fits_iff hne ho hi]
  constructor
  · rintro ⟨g', -, hlawful, type, ⟨-, htakes⟩, -⟩
    exact ⟨htakes, hlawful⟩
  · rintro ⟨htakes, hlawful⟩
    exact ⟨_, hstopped, hlawful, o.type, ⟨rfl, htakes⟩, rfl⟩

/-- How data comes from an output to an input: the input reads the output, or it reads what a reader
takes out of a queue whose writer reads the output. -/
def Carries (g : Graph σ ω) (source target : PortRef) (type : DataType) : Connection → Prop
  | .direct _ _ => g.input target = .ok ⟨type, some source⟩
  | .queued b =>
    (g.role? b.writer = some (.writer b.queue) ∧
      g.input ⟨b.writer, 0⟩ = .ok ⟨type, some source⟩) ∧
    g.role? b.reader = some (.reader b.queue) ∧
      g.output ⟨b.reader, 0⟩ = .ok (.ofType type) ∧
      g.input target = .ok ⟨type, some ⟨b.reader, 0⟩⟩

omit [Behaviour σ ω] in
theorem port_wire_self {p : Port PortRef ω} (h : g.port target = .ok p) :
    (g.wire target i).port target = .ok (.input i) := by
  obtain ⟨slot, hslot, havailable, hport⟩ := port_eq_ok_iff.1 h
  have hwired : (g.wire target i).slot? target.node = some { slot with
      node := { slot.node with ports := slot.node.ports.set target.port (.input i) } } := by
    rw [wire, slot?_modifyNode, if_pos rfl, hslot, Option.map_some]
  exact port_eq_ok_iff.2
    ⟨_, hwired, havailable, List.getElem?_set_self (List.getElem?_eq_some_iff.1 hport).1⟩

/-- Behind a link its input reads its output. -/
theorem Consistent.carries (h : g.Consistent t) (link : Link) (hok : g.connectBy link = .ok g')
    (ho : g.output link.source = .ok o) :
    g'.Carries link.source link.target o.type (g.nextOf link) := by
  obtain ⟨-, -, type, hfits, rfl⟩ := h.connectBy_eq_ok_iff.1 hok
  obtain ⟨value, hsource⟩ := hfits.output
  obtain rfl : o = ⟨type, value⟩ := by
    rw [output_eq_ok_iff, hsource] at ho
    cases ho
    rfl
  unfold nextOf Link.connection Graph.linked
  rcases hcapacity : link.capacity? with _ | capacity
  · exact input_eq_ok_iff.2 (port_wire_self hfits.input)
  · have hfresh := h.fresh_adapters hfits ⟨g.queues.length⟩
    have hroles := role?_withAdapters g type capacity
    have hgrows : (g.withAdapters type capacity).Grows
        (g.bridged link.source link.target type capacity) :=
      ((grows_wire _ _ _).trans (grows_wire _ _ _)).congr rfl rfl
    have hwriter : (g.withWriter link.source type capacity).port ⟨⟨g.nodeCount⟩, 0⟩ =
        .ok (.input ⟨type, some link.source⟩) := port_wire_self port_writer
    have hreader := h.port_withWriter_reader hfits capacity
    -- Only the wiring of the target comes behind.
    have hother {ref : PortRef} {p : Port PortRef ω} (hne : link.target.node ≠ ref.node)
        (hp : (g.withWriter link.source type capacity).port ref = .ok p) :
        (g.bridged link.source link.target type capacity).port ref = .ok p :=
      port_wire (ne_of_apply_ne PortRef.node hne.symm) hp
    exact ⟨⟨hgrows.hidden rfl hroles.1, input_eq_ok_iff.2 (hother hfresh.target_ne_writer hwriter)⟩,
      hgrows.hidden rfl hroles.2, output_eq_ok_iff.2 (hother hfresh.target_ne_reader hreader),
      input_eq_ok_iff.2 (port_wire_self (h.port_withWriter_target hfits capacity))⟩

theorem exists_connectBy_queued {capacity : Nat} :
    (∃ g', g.connectBy ⟨source, target, some capacity⟩ = .ok g') ↔
      ∃ queue g', g.connectQueuedPorts source target capacity = .ok (queue, g') := by
  simp only [connectBy, map_eq_ok_iff, Prod.exists, exists_eq_right]
  exact exists_comm

/-- Ports of different nodes are connected, directly or by a queue, exactly if the input takes the
data of the output and the topology is lawful with the connection. Then the input reads the
output. -/
theorem guards_are_exact (options : Options) (operations : List (Operation σ ω))
    (source target : PortRef) (o : Output) (i : Input PortRef) :
    let g := (empty options).after operations
    let t := (empty options).accepted operations
    let bridge := g.bridgeOf source.node target.node ⟨g.queues.length⟩
    g.isRunning = false → source.node ≠ target.node → g.output source = .ok o →
      g.input target = .ok i →
    (((∃ g', g.connectPorts source target = .ok g') ↔
        i.Takes o ∧ Topology.Lawful (t ++ [.direct source.node target.node])) ∧
      ∀ g', g.connectPorts source target = .ok g' →
        g'.Carries source target o.type (.direct source.node target.node)) ∧
    ∀ capacity,
      ((∃ queue g', g.connectQueuedPorts source target capacity = .ok (queue, g')) ↔
        i.Takes o ∧ Topology.Lawful (t ++ [.queued bridge])) ∧
      ∀ queue g', g.connectQueuedPorts source target capacity = .ok (queue, g') →
        queue = bridge.queue ∧ g'.Carries source target o.type (.queued bridge) := by
  intro g t bridge hstopped hne ho hi
  have h : g.Consistent t := consistent_after options operations
  refine ⟨⟨?_, fun g' hok ↦ ?_⟩, fun capacity ↦ ⟨?_, fun queue g' hok ↦ ?_⟩⟩
  · exact h.exists_connectBy_iff ⟨source, target, none⟩ hstopped hne ho hi
  · exact h.carries ⟨source, target, none⟩ hok ho
  · rw [← exists_connectBy_queued]
    exact h.exists_connectBy_iff ⟨source, target, some capacity⟩ hstopped hne ho hi
  · have hlink : g.connectBy ⟨source, target, some capacity⟩ = .ok g' :=
      map_eq_ok_iff.2 ⟨_, hok, rfl⟩
    exact ⟨(h.connectQueuedPorts_eq_ok_iff.1 hok).2.2.1,
      h.carries ⟨source, target, some capacity⟩ hlink ho⟩

/-- Four stages, of which the second is fed by the first. -/
def gainQueue : List (Operation Demo.Node Empty) :=
  gainQuartet ++ [.connect (.connectQueued ⟨0⟩ ⟨1⟩)]

/-- The second stage may not come directly in front of the first one, but by a queue it may. -/
theorem gainQueue_guarded :
    ((empty .standard).after gainQueue).isRunning = false ∧
      ((empty .standard).after gainQueue).output ⟨⟨1⟩, 1⟩ = .ok (.ofType .block) ∧
      ((empty .standard).after gainQueue).input ⟨⟨0⟩, 0⟩ = .ok (.ofType .block) ∧
      ¬ Topology.Lawful ((empty .standard).accepted gainQueue ++ [.direct ⟨1⟩ ⟨0⟩]) ∧
      ∃ queue g', ((empty .standard).after gainQueue).connectQueuedPorts ⟨⟨1⟩, 1⟩ ⟨⟨0⟩, 0⟩ 1 =
          .ok (queue, g') ∧
        g'.Carries ⟨⟨1⟩, 1⟩ ⟨⟨0⟩, 0⟩ .block (.queued ⟨⟨1⟩, ⟨6⟩, ⟨7⟩, ⟨0⟩, queue⟩) := by
  have houtput : ((empty .standard).after gainQueue).output ⟨⟨1⟩, 1⟩ = .ok (.ofType .block) := rfl
  have hinput : ((empty .standard).after gainQueue).input ⟨⟨0⟩, 0⟩ = .ok (.ofType .block) := rfl
  obtain ⟨⟨hdirect, -⟩, hqueued⟩ := guards_are_exact .standard gainQueue ⟨⟨1⟩, 1⟩ ⟨⟨0⟩, 0⟩ _ _ rfl
    (by decide) houtput hinput
  refine ⟨rfl, houtput, hinput, fun hlawful ↦ ?_, ⟨1⟩, _, rfl, ((hqueued 1).2 _ _ rfl).2⟩
  obtain ⟨g', hok⟩ := hdirect.2 ⟨⟨rfl, rfl⟩, hlawful⟩
  cases hok

end Linked

end Graph

end SignalFlow
