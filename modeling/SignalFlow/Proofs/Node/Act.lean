import SignalFlow.Node.Basic

/-!
# What a call leaves alone

Carrying out one row of steps behind another is carrying out both. A call never makes or removes
a queue nor changes its capacity, and a writer or a reader stays what it is.
-/

namespace SignalFlow

/-- The types and capacities of queues. -/
def kinds (queues : List DataQueue) : List (DataType × Nat) :=
  queues.map fun q ↦ (q.type, q.queue.capacity)

namespace Scene

variable {κ ω : Type} {scene scene' : Scene κ ω}

theorem queues_store {index : Nat} {value : Datum} (h : scene.store index value = .ok scene') :
    scene'.queues = scene.queues := by
  unfold store at h
  rcases ho : scene.output index with fault | o
  · rw [ho] at h
    cases h
  · rw [ho] at h
    rcases hs : o.store value with fault | o'
    · simp only [bind, Except.bind, hs] at h
      cases h
    · simp only [bind, Except.bind, hs] at h
      cases h
      rfl

theorem queues_set (scene : Scene κ ω) (index : Nat) (value : Control.Value) :
    (scene.set index value).1.queues = scene.queues := by
  unfold set
  split
  · rfl
  · split <;> rfl

/-- A queue that is replaced by one of its capacity keeps its kind. -/
theorem kinds_setQueue {id : QueueId} {queue : Queue Datum}
    (h : ∀ q, scene.queues[id.index]? = some q → queue.capacity = q.queue.capacity) :
    kinds (scene.setQueue id queue).queues = kinds scene.queues := by
  apply List.ext_getElem?
  intro k
  rw [kinds, kinds, List.getElem?_map, List.getElem?_map, setQueue, List.getElem?_modify]
  cases hq : scene.queues[k]? with
  | none => rfl
  | some q =>
    by_cases hk : id.index = k
    · subst hk
      simp [h q hq]
    · simp [hk]

theorem kinds_offer (scene : Scene κ ω) (id : QueueId) (item : Datum) :
    kinds (scene.offer id item).1.queues = kinds scene.queues := by
  unfold offer
  split
  · rfl
  · next queue hqueue =>
    refine kinds_setQueue fun q hq ↦ ?_
    rw [hq, Option.bind_some, Queue.tryPush?] at hqueue
    split at hqueue
    · cases hqueue
    · cases hqueue
      rfl

theorem kinds_take (scene : Scene κ ω) (id : QueueId) :
    kinds (scene.take id).1.queues = kinds scene.queues := by
  unfold take
  split
  · rfl
  · next q hq =>
    refine kinds_setQueue fun q' hq' ↦ ?_
    rw [Option.some.inj (hq'.symm.trans hq)]
    rfl

end Scene

namespace Act

variable {κ ω α β : Type} (published : κ → Option Datum)

theorem run_andThen (act : Act ω α) (more : α → Act ω β) (scene : Scene κ ω) :
    (act.andThen more).run published scene =
      let (a, scene, notices) := act.run published scene
      let (b, scene, further) := (more a).run published scene
      (b, scene, notices ++ further) := by
  induction act generalizing scene with
  | done result => rfl
  | read port next ih => exact ih _ scene
  | hasData port next ih => exact ih _ scene
  | store port value next ih =>
    simp only [andThen, run]
    split
    · exact ih _ scene
    · exact ih _ _
  | clear port next ih => exact ih _ _
  | clearAll next ih => exact ih _ _
  | value port next ih => exact ih _ scene
  | set port v next ih =>
    simp only [andThen, run, ih, List.append_assoc]
  | offer queue item next ih => exact ih _ _
  | take queue next ih => exact ih _ _
  | look queue next ih => exact ih _ scene
  | report notice next ih =>
    simp only [andThen, run, ih, List.cons_append]

/-- A call changes neither the type nor the capacity of any queue. -/
theorem kinds_run (act : Act ω α) (scene : Scene κ ω) :
    kinds (act.run published scene).2.1.queues = kinds scene.queues := by
  induction act generalizing scene with
  | done result => rfl
  | read port next ih => exact ih _ scene
  | hasData port next ih => exact ih _ scene
  | store port value next ih =>
    simp only [run]
    split
    · exact ih _ scene
    · next hstore => rw [ih, Scene.queues_store hstore]
  | clear port next ih => exact ih _ _
  | clearAll next ih => exact ih _ _
  | value port next ih => exact ih _ scene
  | set port v next ih =>
    simp only [run]
    rw [ih, Scene.queues_set]
  | offer queue item next ih =>
    simp only [run]
    rw [ih, Scene.kinds_offer]
  | take queue next ih =>
    simp only [run]
    rw [ih, Scene.kinds_take]
  | look queue next ih => exact ih _ scene
  | report notice next ih =>
    simp only [run]
    exact ih _ scene

theorem length_queues_run (act : Act ω α) (scene : Scene κ ω) :
    (act.run published scene).2.1.queues.length = scene.queues.length := by
  simpa [kinds] using congrArg List.length (act.kinds_run published scene)

end Act

namespace Role

variable {σ ω κ : Type} (published : κ → Option Datum) (scene : Scene κ ω)

theorem run_stateless (role : Role σ) (program : NodeProgram Unit ω Unit) :
    ((role.stateless program).run published scene).1.2 = role := by
  unfold stateless
  simp only [bind, pure, Act.run_andThen, Act.run]

/-- A writer or a reader stays what it is in every phase. -/
theorem run_perform_of_isHidden [Behaviour σ ω] {role : Role σ} (hidden : role.isHidden)
    (phase : Phase) (thread : Option String) :
    ((role.perform phase thread).run published scene).1.2 = role := by
  cases role with
  | custom state => cases hidden
  | writer queue => cases phase <;> exact run_stateless published scene _ _
  | reader queue => cases phase <;> exact run_stateless published scene _ _

end Role

end SignalFlow
