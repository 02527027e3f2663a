import SignalFlow.Proofs.Graph.Targets
import SignalFlow.Proofs.Node.Programs

/-!
# Where writers and readers stand

A node that the graph has put in stands at an end of a queue that was accepted with a connection.
No call and no access from outside makes such a node or changes one. Since every queue has one
writer and one reader, in different subgraphs, no two nodes of one subgraph that the graph has put
in use the same queue.
-/

namespace SignalFlow

variable {σ ω : Type}

namespace Role

variable {role : Role σ}

/-- The role itself, if the graph puts nodes in for it. -/
def adapter? (role : Role σ) : Option (Role σ) :=
  if role.isHidden then some role else none

theorem adapter?_changeState (change : σ → σ) (role : Role σ) :
    (Graph.changeState change role).adapter? = role.adapter? := by
  cases role <;> rfl

variable [Behaviour σ ω] {κ : Type}

/-- A node with a state stays one in every call. -/
theorem adapter?_run (published : κ → Option Datum) (scene : Scene κ ω) (phase : Phase)
    (thread : Option String) (role : Role σ) :
    ((role.perform phase thread).run published scene).1.2.adapter? = role.adapter? := by
  cases hrole : role.isHidden with
  | true => rw [run_perform_of_isHidden published scene hrole]
  | false =>
    cases role with
    | custom state =>
      unfold perform
      simp only [bind, pure, Act.run_andThen, Act.run]
      rfl
    | writer queue | reader queue => cases hrole

end Role

namespace Graph

variable {g g' : Graph σ ω} {t : Topology} {a b id : NodeId} {role : Role σ} {queue : QueueId}
  {s : SubgraphId}

/-- Whether every node that the graph has put in stands at an end of its queue. -/
def Spanned (g : Graph σ ω) (t : Topology) : Prop :=
  ∀ id role, seen (fun n ↦ n.role.adapter?) g id = some (some role) → ∃ b ∈ t.bridges,
    id = b.writer ∧ role = .writer b.queue ∨ id = b.reader ∧ role = .reader b.queue

theorem Spanned.congr (h : g.Spanned t)
    (hseen : seen (fun n ↦ n.role.adapter?) g' = seen (fun n ↦ n.role.adapter?) g) :
    g'.Spanned t := by
  intro id role
  rw [hseen]
  exact h id role

theorem Spanned.connectPorts {source target : PortRef} (h : g.Spanned t)
    (hok : g.connectPorts source target = .ok g') : g'.Spanned t :=
  h.congr (seen_connectPorts hok fun _ _ _ _ _ ↦ rfl)

section Operations

variable [Behaviour σ ω]

theorem seen_push {β : Type} (see : Node σ ω → β) (g : Graph σ ω) (ports : List (PortSpec ω))
    (role : Role σ) (id : NodeId) : seen see (g.push ports role).2 id =
      if id = ⟨g.nodeCount⟩ then some (see (.ofSpecs ports role)) else seen see g id := by
  split
  · next heq =>
    rw [heq]
    simp [seen, slot?, push, nodeCount]
  · next hne =>
    by_cases hlt : id.index < g.nodeCount
    · rw [seen, slot?_push hlt, seen]
    · have hgt : id.index ≠ g.nodeCount := fun heq ↦ hne (congrArg NodeId.mk heq)
      have hslot : g.slot? id = none := List.getElem?_eq_none (Nat.le_of_not_lt hlt)
      have hslot' : (g.push ports role).2.slot? id = none := by
        refine List.getElem?_eq_none ?_
        change (g.slots ++ _).length ≤ _
        rw [List.length_append]
        change g.nodeCount + 1 ≤ _
        omega
      rw [seen, hslot', seen, hslot]

theorem lasts_adapter : Lasts fun n : Node σ ω ↦ n.role.adapter? where
  performed g phase thread n :=
    Role.adapter?_run g.published ⟨n.ports, g.queues⟩ phase thread n.role
  applied _ _ _ := rfl

/-- A new queue comes with a writer and a reader. -/
theorem Spanned.connectQueuedPorts {source target : PortRef} {capacity : Nat} (h : g.Spanned t)
    (hok : g.connectQueuedPorts source target capacity = .ok (queue, g')) :
    g'.Spanned (t ++ [.queued (g.bridgeOf source.node target.node queue)]) := by
  obtain ⟨-, -, -, rfl, type, g₁, g₂, hwriter, hreader, producer, consumer, -, -, rfl⟩ :=
    connectQueuedPorts_eq_ok hok
  have hadapters : (g.withAdapters type capacity).Spanned
      (t ++ [.queued (g.bridgeOf source.node target.node ⟨g.queues.length⟩)]) := by
    have hcount : ((g.addQueue type capacity).2.push (Adapter.writerPorts type)
        (.writer ⟨g.queues.length⟩)).2.nodeCount = g.nodeCount + 1 := List.length_append ..
    intro id role hrole
    rw [Topology.bridges_queued]
    rw [withAdapters, seen_push, hcount, seen_push] at hrole
    split at hrole
    · next hid =>
      cases hrole
      exact ⟨_, List.mem_append_right _ List.mem_cons_self, .inr ⟨hid, rfl⟩⟩
    · split at hrole
      · next hid =>
        cases hrole
        exact ⟨_, List.mem_append_right _ List.mem_cons_self, .inl ⟨hid, rfl⟩⟩
      · obtain ⟨b, hb, hends⟩ := h id role hrole
        exact ⟨b, List.mem_append_left _ hb, hends⟩
  exact ((hadapters.connectPorts hwriter).connectPorts hreader).congr rfl

theorem Spanned.result {c : Connection} {attempt : Attempt} (h : g.Spanned t)
    (hok : attempt.result g = .ok (c, g')) : g'.Spanned (t ++ [c]) := by
  rcases attempt.result_cases hok with
    ⟨source, target, rfl, hports⟩ | ⟨source, target, capacity, queue, rfl, hports⟩
  · intro id role
    rw [Topology.bridges_direct]
    exact h.connectPorts hports id role
  · exact h.connectQueuedPorts hports

/-- Nothing but a queue puts nodes in. -/
theorem Spanned.of_made_nil {operation : Operation σ ω} (h : g.Spanned t)
    (hmade : operation.made g = []) : (operation.apply g).Spanned t := by
  intro id role hrole
  rcases lasts_adapter.apply hmade fun _ state _ slot _ ↦ Role.adapter?_changeState state _ with
    ⟨ports, state, rfl⟩ | hsame
  · simp only [Operation.apply, add, seen_push] at hrole
    split at hrole
    · cases hrole
    · exact h id role hrole
  · rw [hsame] at hrole
    exact h id role hrole

theorem Spanned.apply (h : g.Spanned t) (operation : Operation σ ω) :
    (operation.apply g).Spanned (t ++ operation.made g) := by
  rcases operation.apply_cases g with ⟨hmade, -⟩ | ⟨attempt, c, hmade, hok⟩
  · rw [hmade, List.append_nil]
    exact h.of_made_nil hmade
  · rw [hmade]
    exact h.result hok

theorem spanned_after (options : Options) (operations : List (Operation σ ω)) :
    ((empty options).after operations).Spanned ((empty options).accepted operations) :=
  (consistent_empty options).preserved (P := fun g t ↦ g.Spanned t)
    (fun operation _ _ _ _ h ↦ h.apply operation) nofun

end Operations

/-- The queue that a node was put in for, if it was. -/
def queueOf (g : Graph σ ω) (id : NodeId) : Option QueueId :=
  (g.role? id).bind Role.queue?

theorem queueOf_eq_seen (g : Graph σ ω) (id : NodeId) : g.queueOf id =
    (seen (fun n ↦ n.role.adapter?) g id).bind fun role ↦ role.bind Role.queue? := by
  unfold queueOf role? seen
  cases g.slot? id with
  | none => rfl
  | some slot =>
    simp only [Option.map_some, Option.bind_some]
    cases slot.node.role <;> rfl

theorem role?_eq_some_iff_seen (hidden : role.isHidden = true) :
    g.role? id = some role ↔ seen (fun n ↦ n.role.adapter?) g id = some (some role) := by
  unfold role? seen
  cases g.slot? id with
  | none => simp
  | some slot =>
    simp only [Option.map_some, Option.some.injEq, Role.adapter?]
    split
    · rw [Option.some.injEq]
    · next hshown =>
      refine iff_of_false ?_ fun hnone ↦ by cases hnone
      rintro rfl
      exact hshown hidden

theorem Spanned.of_role? (h : g.Spanned t) (hrole : g.role? id = some role)
    (hidden : role.isHidden = true) : ∃ b ∈ t.bridges,
      id = b.writer ∧ role = .writer b.queue ∨ id = b.reader ∧ role = .reader b.queue := by
  obtain ⟨slot, hslot, rfl⟩ := Option.map_eq_some_iff.1 hrole
  refine h id slot.node.role ?_
  rw [seen, hslot, Option.map_some, Role.adapter?, if_pos hidden]

theorem Spanned.exists_end (h : g.Spanned t) (hqueue : g.queueOf id = some queue) :
    ∃ b ∈ t.bridges, b.queue = queue ∧ (id = b.writer ∨ id = b.reader) := by
  obtain ⟨role, hrole, hqueue⟩ := Option.bind_eq_some_iff.1 hqueue
  have hidden : role.isHidden = true := by
    cases role with
    | custom state => cases hqueue
    | writer queue | reader queue => rfl
  obtain ⟨b, hb, ⟨hid, rfl⟩ | ⟨hid, rfl⟩⟩ := h.of_role? hrole hidden
  · exact ⟨b, hb, Option.some.inj hqueue, .inl hid⟩
  · exact ⟨b, hb, Option.some.inj hqueue, .inr hid⟩

/-- In one subgraph no two nodes were put in for the same queue. -/
theorem Spanned.eq_of_queueOf (h : g.Spanned t) (hg : g.Consistent t) (ha : g.subgraphOf a = some s)
    (hb : g.subgraphOf b = some s) (hqueue : g.queueOf a = some queue)
    (hqueue' : g.queueOf b = some queue) : a = b := by
  obtain ⟨x, hx, hxqueue, hxend⟩ := h.exists_end hqueue
  obtain ⟨y, hy, hyqueue, hyend⟩ := h.exists_end hqueue'
  obtain rfl : x = y := List.inj_on_of_nodup_map hg.nodup_queues hx hy (hxqueue.trans hyqueue.symm)
  have hreachable := (hg.represents.tracks.eq_iff ha hb).1 rfl
  rcases hxend with rfl | rfl
  · rcases hyend with rfl | rfl
    · rfl
    · exact absurd hreachable (hg.lawful.apart x hx)
  · rcases hyend with rfl | rfl
    · exact absurd hreachable.symm (hg.lawful.apart x hx)
    · rfl

end Graph

end SignalFlow
