import SignalFlow.Proofs.Node.Within

/-!
# How far programs of nodes reach

A program reaches as far as its parts. Writers and readers use the queue that they were put in
for and no other.
-/

namespace SignalFlow

namespace NodeProgram

variable {σ ω α β : Type} {reach : Reach}

/-- Whether a program keeps within a reach, whatever the state of the node is. -/
def Within (reach : Reach) (program : NodeProgram σ ω α) : Prop :=
  ∀ state, (program.run.run state).Within reach fun _ ↦ True

theorem within_pure (result : α) : (pure result : NodeProgram σ ω α).Within reach :=
  fun _ ↦ trivial

theorem Within.bind {program : NodeProgram σ ω α} {more : α → NodeProgram σ ω β}
    (h : program.Within reach) (hmore : ∀ a, (more a).Within reach) :
    (program >>= more).Within reach := by
  intro state
  refine Act.Within.andThen (h state) ?_
  rintro ⟨ending, state'⟩ -
  cases ending with
  | ok a => exact hmore a state'
  | error stop => trivial

theorem within_act {a : Act ω α} (h : a.Within reach fun _ ↦ True) :
    (act a : NodeProgram σ ω α).Within reach := by
  intro state
  have hlift : (StateT.lift a state).Within reach fun _ ↦ True :=
    Act.Within.andThen h fun _ _ ↦ trivial
  exact Act.Within.andThen hlift fun _ _ ↦ trivial

theorem within_read (port : Nat) : (read port : NodeProgram σ ω _).Within reach :=
  within_act fun _ ↦ trivial

theorem within_report (notice : Notice ω) : (report notice : NodeProgram σ ω _).Within reach :=
  within_act fun _ ↦ trivial

theorem within_store (port : Nat) (value : Datum) :
    (store port value : NodeProgram σ ω _).Within reach := by
  have hact : (act (.store port value .done) : NodeProgram σ ω _).Within reach :=
    within_act fun _ ↦ trivial
  refine hact.bind fun result ↦ ?_
  cases result <;> exact fun _ ↦ trivial

theorem within_clearAll : (clearAll : NodeProgram σ ω _).Within reach :=
  within_act fun _ ↦ trivial

variable {queue : QueueId} (h : reach.uses queue)

include h

theorem within_offer (item : Datum) : (offer queue item : NodeProgram σ ω _).Within reach :=
  within_act ⟨h, fun _ ↦ trivial⟩

theorem within_take : (take queue : NodeProgram σ ω _).Within reach :=
  within_act ⟨h, fun _ ↦ trivial⟩

theorem within_look : (look queue : NodeProgram σ ω _).Within reach :=
  within_act ⟨h, fun _ ↦ trivial⟩

end NodeProgram

namespace Adapter

open NodeProgram

variable {σ ω : Type} {reach : Reach} {queue : QueueId} (h : reach.uses queue)

include h

theorem within_offerAll (items : List Datum) :
    (offerAll queue items : NodeProgram σ ω Unit).Within reach := by
  induction items with
  | nil => exact within_pure ()
  | cons item rest ih =>
    refine (within_offer h item).bind fun accepted ↦ ?_
    cases accepted with
    | true => exact ih
    | false => exact (within_look h).bind fun shape ↦ within_report _

theorem within_write : (write queue : NodeProgram σ ω Unit).Within reach := by
  refine (within_read 0).bind fun single ↦ ?_
  split
  on_goal 1 =>
    refine (within_offer h _).bind fun accepted ↦ ?_
    split
    on_goal 1 => refine (within_look h).bind fun shape ↦ (within_report _).bind fun _ ↦ ?_
  -- Whatever became of the single value, the batch is read next.
  all_goals
    refine (within_read 1).bind fun batch ↦ ?_
    split
    · exact within_offerAll h _
    · exact within_pure ()

theorem within_publish : (publish queue : NodeProgram σ ω Unit).Within reach := by
  refine (within_take h).bind fun item ↦ ?_
  cases item with
  | some item => exact within_store 0 item
  | none => exact (within_look h).bind fun shape ↦ within_report _

end Adapter

namespace Role

variable {σ ω : Type} {reach : Reach} {role : Role σ} {queue : QueueId}

/-- The queue that a node was put in for. -/
def queue? : Role σ → Option QueueId
  | .custom _ => none
  | .writer queue | .reader queue => some queue

theorem within_stateless {program : NodeProgram Unit ω Unit} {post : Role σ → Prop}
    (h : program.Within reach) (hpost : post role) :
    (role.stateless program).Within reach fun r ↦ post r.2 :=
  (h ()).andThen fun _ _ ↦ hpost

/-- A node that was put in for a queue uses this queue only. -/
theorem within_perform_of_queue? [Behaviour σ ω] (post : Role σ → Prop)
    (hqueue : role.queue? = some queue) (h : reach.uses queue) (hpost : post role) (phase : Phase)
    (thread : Option String) : (role.perform phase thread).Within reach fun r ↦ post r.2 := by
  cases role with
  | custom state => cases hqueue
  | writer queue' =>
    cases hqueue
    cases phase with
    | process => exact within_stateless (Adapter.within_write h) hpost
    | reset => exact within_stateless NodeProgram.within_clearAll hpost
    | init | destroy => exact within_stateless (NodeProgram.within_pure ()) hpost
  | reader queue' =>
    cases hqueue
    cases phase with
    | process => exact within_stateless (Adapter.within_publish h) hpost
    | reset => exact within_stateless NodeProgram.within_clearAll hpost
    | init | destroy => exact within_stateless (NodeProgram.within_pure ()) hpost

end Role

end SignalFlow
