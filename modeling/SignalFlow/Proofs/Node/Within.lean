import SignalFlow.Proofs.Node.Act
import SignalFlow.Proofs.Node.Storing

/-!
# How far a call reaches

A call may set controls of its node and use queues. A reach says which ones. A call that keeps
within it, whatever comes of its steps, leaves all other controls and queues as they are.
-/

namespace SignalFlow

open Control

/-- The controls that a call may set, and the queues that it may use. -/
structure Reach where
  sets : Nat → Prop
  uses : QueueId → Prop

namespace Act

variable {ω α β : Type} {reach : Reach} {post : α → Prop}

/-- Whether all steps of a call that can come to pass are within a reach, and all results are of
a kind. -/
def Within (reach : Reach) (post : α → Prop) : Act ω α → Prop
  | done result => post result
  | read _ next => ∀ r, (next r).Within reach post
  | hasData _ next => ∀ r, (next r).Within reach post
  | store _ _ next => ∀ r, (next r).Within reach post
  | clear _ next => ∀ r, (next r).Within reach post
  | clearAll next => ∀ r, (next r).Within reach post
  | value _ next => ∀ r, (next r).Within reach post
  | set port _ next => reach.sets port ∧ ∀ r, (next r).Within reach post
  | offer queue _ next => reach.uses queue ∧ ∀ r, (next r).Within reach post
  | take queue next => reach.uses queue ∧ ∀ r, (next r).Within reach post
  | look queue next => reach.uses queue ∧ ∀ r, (next r).Within reach post
  | report _ next => ∀ r, (next r).Within reach post

theorem Within.mono {reach' : Reach} {post' : α → Prop} {act : Act ω α} (h : act.Within reach post)
    (hsets : ∀ port, reach.sets port → reach'.sets port)
    (huses : ∀ queue, reach.uses queue → reach'.uses queue) (hpost : ∀ a, post a → post' a) :
    act.Within reach' post' := by
  induction act with
  | done result => exact hpost result h
  | read _ _ ih | hasData _ _ ih | store _ _ _ ih | clear _ _ ih | clearAll _ ih | value _ _ ih
  | report _ _ ih => exact fun r ↦ ih r (h r)
  | set port _ _ ih => exact ⟨hsets port h.1, fun r ↦ ih r (h.2 r)⟩
  | offer queue _ _ ih => exact ⟨huses queue h.1, fun r ↦ ih r (h.2 r)⟩
  | take queue _ ih | look queue _ ih => exact ⟨huses queue h.1, fun r ↦ ih r (h.2 r)⟩

theorem Within.andThen {post' : β → Prop} {more : α → Act ω β} {act : Act ω α}
    (h : act.Within reach post) (hmore : ∀ a, post a → (more a).Within reach post') :
    (act.andThen more).Within reach post' := by
  induction act with
  | done result => exact hmore result h
  | read _ _ ih | hasData _ _ ih | store _ _ _ ih | clear _ _ ih | clearAll _ ih | value _ _ ih
  | report _ _ ih => exact fun r ↦ ih r (h r)
  | set _ _ _ ih | offer _ _ _ ih | take _ _ ih | look _ _ ih => exact ⟨h.1, fun r ↦ ih r (h.2 r)⟩

section Run

variable {κ : Type} {published : κ → Option Datum}

/-- The result is of the kind that all results are of. -/
theorem Within.post_run {act : Act ω α} (h : act.Within reach post) (scene : Scene κ ω) :
    post (act.run published scene).1 := by
  induction act generalizing scene with
  | done result => exact h
  | read _ _ ih | hasData _ _ ih | clear _ _ ih | clearAll _ ih | value _ _ ih =>
    exact ih _ (h _) _
  | report _ _ ih => exact ih _ (h _) scene
  | look _ _ ih => exact ih _ (h.2 _) scene
  | set _ _ _ ih | offer _ _ _ ih | take _ _ ih => exact ih _ (h.2 _) _
  | store _ _ _ ih =>
    simp only [run]
    split
    · exact ih _ (h _) scene
    · exact ih _ (h _) _

end Run

end Act

/-- The data that a port stores, if it is a control. -/
def Port.stored {κ ω : Type} : Port κ ω → Option ((t : Storage) × t.Carrier)
  | .control c => some ⟨c.storage, c.data⟩
  | .input _ | .output _ => none

/-- The data that the control at an index stores. -/
def stored {κ ω : Type} (ports : List (Port κ ω)) (index : Nat) :
    Option ((t : Storage) × t.Carrier) :=
  ports[index]?.bind Port.stored

section Stored

variable {κ ω α : Type} {ports : List (Port κ ω)} {index other : Nat} {scene scene' : Scene κ ω}

theorem stored_clear (p : Port κ ω) : p.clear.stored = p.stored := by
  cases p <;> rfl

theorem stored_set_of_ne (ports : List (Port κ ω)) (p : Port κ ω) (h : index ≠ other) :
    stored (ports.set index p) other = stored ports other := by
  rw [stored, List.getElem?_set_ne h, stored]

theorem Scene.stored_store {value : Datum} (h : scene.store index value = .ok scene') :
    stored scene'.ports other = stored scene.ports other := by
  obtain ⟨o, ho, h⟩ := bind_eq_ok_iff.1 h
  obtain ⟨o', -, h⟩ := bind_eq_ok_iff.1 h
  cases h
  by_cases hother : index = other
  · subst hother
    have hlt := (List.getElem?_eq_some_iff.1 (getElem?_of_output ho)).1
    rw [stored, stored, getElem?_of_output ho]
    simp only [setPort, List.getElem?_set_self hlt]
    rfl
  · exact stored_set_of_ne _ _ hother

theorem Scene.stored_set (scene : Scene κ ω) (value : Value) (h : index ≠ other) :
    stored (scene.set index value).1.ports other = stored scene.ports other := by
  unfold set
  split
  · rfl
  · split
    · rfl
    · exact stored_set_of_ne _ _ h

/-- A call leaves the controls alone that it may not set. -/
theorem Act.Within.stored_run {reach : Reach} {post : α → Prop} {act : Act ω α}
    {published : κ → Option Datum} (h : act.Within reach post) (hindex : ¬ reach.sets index)
    (scene : Scene κ ω) :
    stored (act.run published scene).2.1.ports index = stored scene.ports index := by
  induction act generalizing scene with
  | done result => rfl
  | read _ _ ih | hasData _ _ ih | value _ _ ih => exact ih _ (h _) scene
  | report _ _ ih => exact ih _ (h _) scene
  | look _ _ ih => exact ih _ (h.2 _) scene
  | clear port next ih =>
    refine (ih _ (h _) _).trans ?_
    unfold stored Scene.clear
    rw [List.getElem?_modify]
    cases scene.ports[index]? with
    | none => rfl
    | some p =>
      by_cases hp : port = index
      · simp [hp, stored_clear]
      · simp [hp]
  | clearAll next ih =>
    refine (ih _ (h _) _).trans ?_
    unfold stored Scene.clearAll
    rw [List.getElem?_map]
    cases scene.ports[index]? with
    | none => rfl
    | some p => exact stored_clear p
  | store port value next ih =>
    simp only [run]
    split
    · exact ih _ (h _) scene
    · next hstore => rw [ih _ (h _), Scene.stored_store hstore]
  | set port v next ih =>
    refine (ih _ (h.2 _) _).trans (scene.stored_set v ?_)
    rintro rfl
    exact hindex h.1
  | offer queue item next ih =>
    exact (ih _ (h.2 _) _).trans (congrArg (stored · index) (scene.ports_offer queue item))
  | take queue next ih =>
    exact (ih _ (h.2 _) _).trans (congrArg (stored · index) (scene.ports_take queue))

theorem stored_hold {c : ControlPort ω} {data : (t : Storage) × t.Carrier}
    (same : data.1 = c.storage) : ((.control c : Port κ ω).hold data).stored = some data := by
  rw [Port.hold_control_of_eq same]
  obtain ⟨storage, held, observer⟩ := c
  obtain ⟨t, new⟩ := data
  cases same
  rfl

theorem stored_modify_hold {data : (t : Storage) × t.Carrier}
    (h : (shapes ports)[index]? = some (.control data.1)) :
    stored (ports.modify index (Port.hold data)) index = some data := by
  obtain ⟨c, hc, hstorage⟩ := exists_control_of_shape h
  rw [stored, List.getElem?_modify, hc]
  simpa using stored_hold hstorage.symm

theorem stored_modify_hold_of_ne {data : (t : Storage) × t.Carrier} (h : index ≠ other) :
    stored (ports.modify index (Port.hold data)) other = stored ports other := by
  rw [stored, List.getElem?_modify, stored]
  simp [h]

/-- A value from outside leaves all controls alone but the one that it is for. -/
theorem Binding.stored_apply_of_ne {b : Binding} {value : Value} (h : b.port ≠ index) :
    stored (b.apply ports value).1 index = stored ports index := by
  rw [fst_apply]
  split
  · rfl
  · exact stored_modify_hold_of_ne h

/-- A control that is there stores a value that is accepted, also if its observer gives up. -/
theorem Binding.stored_apply {b : Binding} {value : Value} {data : b.storage.Carrier}
    (hcontrol : (shapes ports)[b.port]? = some (.control b.storage))
    (haccept : b.accept value = .ok data) :
    stored (b.apply ports value).1 b.port = some ⟨b.storage, data⟩ := by
  rw [fst_apply, haccept]
  exact stored_modify_hold hcontrol

end Stored

/-! ## Scenes that a call cannot tell apart -/

section Input

variable {κ ω : Type} {i : Input κ} {published published' : κ → Option Datum}

theorem Input.read_congr (h : ∀ source, i.source = some source →
    published' source = published source) : i.read published' = i.read published := by
  unfold read
  cases hsource : i.source with
  | none => rfl
  | some source =>
    dsimp only
    rw [h source hsource]

theorem Input.hasData_congr (h : ∀ source, i.source = some source →
    published' source = published source) : i.hasData published' = i.hasData published := by
  unfold hasData
  cases hsource : i.source with
  | none => rfl
  | some source =>
    dsimp only
    rw [h source hsource]

theorem Scene.source_of_input {scene : Scene κ ω} {index : Nat} (h : scene.input index = .ok i) :
    sources scene.ports index = i.source := by
  obtain ⟨p, hp, h⟩ := bind_eq_ok_iff.1 h
  rw [sources, port_eq_ok_iff.1 hp]
  cases p with
  | input i' =>
    cases h
    rfl
  | output o => cases h
  | control c => cases h

/-- A use of an input depends on the scene through the source of the input only. -/
theorem Scene.input_bind_congr {β : Type} {scene : Scene κ ω} {index : Nat}
    {use use' : Input κ → Except PortFault β}
    (h : ∀ i, sources scene.ports index = i.source → use' i = use i) :
    (scene.input index).bind use' = (scene.input index).bind use := by
  cases hi : scene.input index with
  | error fault => rfl
  | ok i => exact h i (source_of_input hi)

end Input

section Alike

variable {κ ω α : Type} {uses : QueueId → Prop} {scene scene' : Scene κ ω} {id other : QueueId}

namespace Scene

/-- Scenes with the same ports, and the same in some queues. -/
structure Alike (uses : QueueId → Prop) (scene scene' : Scene κ ω) : Prop where
  ports : scene'.ports = scene.ports
  queues : ∀ id, uses id → scene'.queues[id.index]? = scene.queues[id.index]?

theorem queues_setQueue (scene : Scene κ ω) (id other : QueueId) (queue : Queue Datum) :
    (scene.setQueue id queue).queues[other.index]? = if id = other then
      scene.queues[other.index]?.map ({ · with queue }) else scene.queues[other.index]? := by
  unfold setQueue
  rw [List.getElem?_modify]
  by_cases h : id = other
  · simp [h]
  · have hindex : id.index ≠ other.index := fun heq ↦ h (congrArg QueueId.mk heq)
    simp [h, hindex]

theorem queues_offer_of_ne (scene : Scene κ ω) (item : Datum) (h : id ≠ other) :
    (scene.offer id item).1.queues[other.index]? = scene.queues[other.index]? := by
  unfold offer
  split
  · rfl
  · rw [queues_setQueue, if_neg h]

theorem queues_take_of_ne (scene : Scene κ ω) (h : id ≠ other) :
    (scene.take id).1.queues[other.index]? = scene.queues[other.index]? := by
  unfold take
  split
  · rfl
  · rw [queues_setQueue, if_neg h]

namespace Alike

theorem input (h : Alike uses scene scene') (index : Nat) :
    scene'.input index = scene.input index := by
  simp only [Scene.input, port, h.ports]

theorem output (h : Alike uses scene scene') (index : Nat) :
    scene'.output index = scene.output index := by
  simp only [Scene.output, port, h.ports]

theorem control (h : Alike uses scene scene') (index : Nat) :
    scene'.control index = scene.control index := by
  simp only [Scene.control, port, h.ports]

section Published

variable {published published' : κ → Option Datum}
  (hpublished : ∀ index source, sources scene.ports index = some source →
    published' source = published source)

include hpublished

theorem read (h : Alike uses scene scene') (port : Nat) :
    (scene'.input port).bind (·.read published') = (scene.input port).bind (·.read published) := by
  rw [h.input]
  refine input_bind_congr fun i hi ↦ Input.read_congr fun source hsource ↦ ?_
  exact hpublished port source (hi.trans hsource)

theorem hasData (h : Alike uses scene scene') (port : Nat) :
    (scene'.input port).bind (·.hasData published') =
      (scene.input port).bind (·.hasData published) := by
  rw [h.input]
  refine input_bind_congr fun i hi ↦ Input.hasData_congr fun source hsource ↦ ?_
  exact hpublished port source (hi.trans hsource)

end Published

theorem withPorts (h : Alike uses scene scene') (ports : List (Port κ ω)) :
    Alike uses { scene with ports } { scene' with ports } :=
  ⟨rfl, h.queues⟩

theorem setPort (h : Alike uses scene scene') (index : Nat) (p : Port κ ω) :
    Alike uses (scene.setPort index p) (scene'.setPort index p) := by
  unfold Scene.setPort
  rw [h.ports]
  exact h.withPorts _

theorem set (h : Alike uses scene scene') (index : Nat) (value : Value) :
    Alike uses (scene.set index value).1 (scene'.set index value).1 ∧
      (scene'.set index value).2.2 = (scene.set index value).2.2 := by
  unfold Scene.set
  rw [h.control]
  split
  · exact ⟨h, rfl⟩
  · split
    · exact ⟨h, rfl⟩
    · exact ⟨h.setPort index _, rfl⟩

theorem store {index : Nat} {value : Datum} {stored : Scene κ ω} (h : Alike uses scene scene')
    (hstore : scene.store index value = .ok stored) :
    ∃ stored', scene'.store index value = .ok stored' ∧ Alike uses stored stored' := by
  obtain ⟨o, ho, hstore⟩ := bind_eq_ok_iff.1 hstore
  obtain ⟨o', ho', hstore⟩ := bind_eq_ok_iff.1 hstore
  cases hstore
  refine ⟨scene'.setPort index (.output o'), ?_, h.setPort index _⟩
  unfold Scene.store
  rw [h.output, ho]
  simp only [bind, Except.bind, ho']
  rfl

theorem store_error {index : Nat} {value : Datum} {fault : PortFault}
    (h : Alike uses scene scene') (hstore : scene.store index value = .error fault) :
    scene'.store index value = .error fault := by
  unfold Scene.store at hstore ⊢
  rw [h.output]
  cases ho : scene.output index with
  | error fault' =>
    rw [ho] at hstore
    exact hstore
  | ok o =>
    rw [ho] at hstore
    cases ho' : o.store value with
    | error fault' =>
      simp only [bind, Except.bind, ho'] at hstore ⊢
      exact hstore
    | ok o' =>
      simp only [bind, Except.bind, ho'] at hstore
      cases hstore

theorem setQueue (h : Alike uses scene scene') (id : QueueId) (queue : Queue Datum) :
    Alike uses (scene.setQueue id queue) (scene'.setQueue id queue) where
  ports := h.ports
  queues other hother := by
    rw [queues_setQueue, queues_setQueue, h.queues other hother]

theorem offer (h : Alike uses scene scene') (hid : uses id) (item : Datum) :
    Alike uses (scene.offer id item).1 (scene'.offer id item).1 ∧
      (scene'.offer id item).2 = (scene.offer id item).2 := by
  unfold Scene.offer
  rw [h.queues id hid]
  split
  · exact ⟨h, rfl⟩
  · exact ⟨h.setQueue id _, rfl⟩

theorem take (h : Alike uses scene scene') (hid : uses id) :
    Alike uses (scene.take id).1 (scene'.take id).1 ∧ (scene'.take id).2 = (scene.take id).2 := by
  unfold Scene.take
  rw [h.queues id hid]
  split
  · exact ⟨h, rfl⟩
  · exact ⟨h.setQueue id _, rfl⟩

end Alike

end Scene

namespace Act

variable {reach : Reach} {post : α → Prop} {act : Act ω α} {published published' : κ → Option Datum}

/-- A call leaves the queues alone that it may not use. -/
theorem Within.queues_run (h : act.Within reach post) (hid : ¬ reach.uses id)
    (scene : Scene κ ω) :
    (act.run published scene).2.1.queues[id.index]? = scene.queues[id.index]? := by
  induction act generalizing scene with
  | done result => rfl
  | read _ _ ih | hasData _ _ ih | value _ _ ih | clear _ _ ih | clearAll _ ih => exact ih _ (h _) _
  | report _ _ ih => exact ih _ (h _) scene
  | look _ _ ih => exact ih _ (h.2 _) scene
  | store port datum next ih =>
    simp only [run]
    split
    · exact ih _ (h _) scene
    · next hstore => rw [ih _ (h _), Scene.queues_store hstore]
  | set port v next ih =>
    exact (ih _ (h.2 _) _).trans (congrArg (·[id.index]?) (scene.queues_set port v))
  | offer queue item next ih =>
    refine (ih _ (h.2 _) _).trans (scene.queues_offer_of_ne item ?_)
    rintro rfl
    exact hid h.1
  | take queue next ih =>
    refine (ih _ (h.2 _) _).trans (scene.queues_take_of_ne ?_)
    rintro rfl
    exact hid h.1

/-- What comes of a call depends on the ports of its node, on what the sources of these hold and on
the queues that it may use. -/
theorem Within.run_congr (h : act.Within reach post) (halike : scene.Alike reach.uses scene')
    (hpublished : ∀ index source, sources scene.ports index = some source →
      published' source = published source) :
    (act.run published scene).2.1.Alike reach.uses (act.run published' scene').2.1 ∧
      (act.run published' scene').1 = (act.run published scene).1 := by
  induction act generalizing scene scene' with
  | done result => exact ⟨halike, rfl⟩
  | read port next ih =>
    simp only [run]
    rw [halike.read hpublished]
    exact ih _ (h _) halike hpublished
  | hasData port next ih =>
    simp only [run]
    rw [halike.hasData hpublished]
    exact ih _ (h _) halike hpublished
  | value port next ih =>
    simp only [run]
    rw [halike.control]
    exact ih _ (h _) halike hpublished
  | report notice next ih => exact ih _ (h _) halike hpublished
  | look queue next ih =>
    have hshape : scene'.shape queue = scene.shape queue := by
      rw [Scene.shape, halike.queues queue h.1, Scene.shape]
    simp only [run]
    rw [hshape]
    exact ih _ (h.2 _) halike hpublished
  | store port datum next ih =>
    simp only [run]
    cases hstore : scene.store port datum with
    | error fault =>
      rw [halike.store_error hstore]
      exact ih _ (h _) halike hpublished
    | ok stored =>
      obtain ⟨stored', hstore', halike'⟩ := halike.store hstore
      rw [hstore']
      refine ih _ (h _) halike' ?_
      rwa [sources_congr (Scene.frames_store hstore)]
  | clear port next ih =>
    refine ih _ (h _) ⟨?_, halike.queues⟩ ?_
    · rw [Scene.clear, halike.ports, Scene.clear]
    · rwa [Scene.clear, sources_congr (frames_modify_clear scene.ports port)]
  | clearAll next ih =>
    refine ih _ (h _) ⟨?_, halike.queues⟩ ?_
    · rw [Scene.clearAll, halike.ports, Scene.clearAll]
    · rwa [Scene.clearAll, sources_map_clear]
  | set port v next ih =>
    obtain ⟨halike', hresult⟩ := halike.set port v
    simp only [run]
    rw [hresult]
    refine ih _ (h.2 _) halike' ?_
    rwa [sources_congr (scene.frames_setValue port v)]
  | offer queue item next ih =>
    obtain ⟨halike', hresult⟩ := halike.offer h.1 item
    simp only [run]
    rw [hresult]
    refine ih _ (h.2 _) halike' ?_
    rwa [scene.ports_offer]
  | take queue next ih =>
    obtain ⟨halike', hresult⟩ := halike.take h.1
    simp only [run]
    rw [hresult]
    refine ih _ (h.2 _) halike' ?_
    rwa [scene.ports_take]

end Act

end Alike

end SignalFlow
