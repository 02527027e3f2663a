import Mathlib.Data.List.Induction
import SignalFlow.Proofs.Node.Storing

/-!
# What a call reads and stores

The trace of a call tells what it did with inputs and outputs and what came of it. Every read gets
what the source of the input held when the call began. Every store is refused exactly if the
output holds a value already, be it from before the call or from the call itself. What an output
holds behind the call is what it held before, changed by the trace.
-/

namespace SignalFlow

/-- What a call does with an input or an output, and what comes of it. -/
inductive Event where
  | read (port : Nat) (result : Except PortFault Datum)
  | hasData (port : Nat) (result : Except PortFault Bool)
  | store (port : Nat) (value : Datum) (result : Except PortFault Unit)
  | clear (port : Nat)
  | clearAll

namespace Event

variable {port : Nat} {value : Datum} {result : Except PortFault Unit} {held : Nat → Option Datum}
  {e : Event} {events before behind : List Event}

/-- Whether an event, if it uses an input, tells what the source of the input holds. -/
def Tells (port : Nat) (held : Option Datum) : Event → Prop
  | .read p result => p = port → result = held.elim (.error .noData) .ok
  | .hasData p result => p = port → result = .ok held.isSome
  | .store _ _ _ | .clear _ | .clearAll => True

/-- What an output holds behind an event, by what it held before. -/
def leave (port : Nat) (held : Option Datum) : Event → Option Datum
  | .store p value (.ok ()) => if p = port then some value else held
  | .clear p => if p = port then none else held
  | .clearAll => none
  | .store _ _ (.error _) | .read _ _ | .hasData _ _ => held

/-- What events leave in an output that was empty: the value that was stored last, unless it was
cleared again. -/
def left (events : List Event) (port : Nat) : Option Datum :=
  events.foldl (leave port) none

def clears : Event → Bool
  | .clear _ | .clearAll => true
  | .read _ _ | .hasData _ _ | .store _ _ _ => false

/-- Whether an event is the attempt to store a value in an output. -/
def storesIn (port : Nat) : Event → Bool
  | .store p _ _ => p = port
  | .read _ _ | .hasData _ _ | .clear _ | .clearAll => false

/-- A value that is left was stored. -/
theorem store_mem_of_left (h : left events port = some value) :
    .store port value (.ok ()) ∈ events := by
  induction events using List.reverseRecOn with
  | nil => cases h
  | append_singleton before last ih =>
    rw [left, List.foldl_append, List.foldl_cons, List.foldl_nil] at h
    rw [List.mem_append]
    cases last with
    | read p r | hasData p r => exact .inl (ih h)
    | clear p =>
      simp only [leave] at h
      split at h
      · cases h
      · exact .inl (ih h)
    | clearAll => cases h
    | store p v r =>
      cases r with
      | error fault => exact .inl (ih h)
      | ok done =>
        simp only [leave] at h
        split at h
        · next hp =>
          cases hp
          cases h
          exact .inr List.mem_cons_self
        · exact .inl (ih h)

/-- Whether stores are refused exactly where an output holds a value. -/
def Obey (held : Nat → Option Datum) : List Event → Prop
  | [] => True
  | e :: rest =>
    (∀ port value result, e = .store port value result →
      (result = .error .alreadySet ↔ (held port).isSome = true)) ∧
      Obey (fun port ↦ leave port (held port) e) rest

theorem Obey.of_append_left (h : Obey held (before ++ behind)) : Obey held before := by
  induction before generalizing held with
  | nil => trivial
  | cons e before ih => exact ⟨h.1, ih h.2⟩

theorem Obey.of_append (h : Obey held (before ++ behind)) :
    Obey (fun port ↦ before.foldl (leave port) (held port)) behind := by
  induction before generalizing held with
  | nil => exact h
  | cons e before ih => exact ih h.2

theorem Obey.refused_iff (h : Obey held (before ++ .store port value result :: behind)) :
    result = .error .alreadySet ↔ (before.foldl (leave port) (held port)).isSome = true :=
  h.of_append.1 port value result rfl

/-- If nothing is cleared, an output keeps its value. -/
theorem Obey.stays (h : Obey held events) (hclears : ∀ e ∈ events, e.clears = false)
    (hheld : held port = some value) : events.foldl (leave port) (held port) = some value := by
  induction events generalizing held with
  | nil => exact hheld
  | cons e rest ih =>
    refine ih h.2 (fun later hlater ↦ hclears later (List.mem_cons_of_mem _ hlater)) ?_
    have hfirst := hclears e List.mem_cons_self
    cases e with
    | read p r | hasData p r => exact hheld
    | clear p | clearAll => cases hfirst
    | store p v r =>
      cases r with
      | error fault => exact hheld
      | ok done =>
        simp only [leave]
        split
        · next hp =>
          -- The output is not empty, so that it refuses the value.
          have hrefused := (h.1 p v _ rfl).2 (by rw [hp, hheld, Option.isSome_some])
          cases hrefused
        · exact hheld

/-- What a call leaves in an output that was empty is what it stores there, if it clears nothing. -/
theorem Obey.left_eq_some_iff (h : Obey (fun _ ↦ none) events)
    (hclears : ∀ e ∈ events, e.clears = false) :
    left events port = some value ↔ .store port value (.ok ()) ∈ events := by
  refine ⟨store_mem_of_left, fun hmem ↦ ?_⟩
  obtain ⟨before, behind, rfl⟩ := List.append_of_mem hmem
  rw [left, List.foldl_append, List.foldl_cons]
  refine h.of_append.2.stays (fun e he ↦ hclears e ?_) (if_pos rfl)
  exact List.mem_append_right _ (List.mem_cons_of_mem _ he)

/-- Nothing is stored in an output behind another value if nothing is cleared. -/
theorem Obey.not_stored_before
    (h : Obey (fun _ ↦ none) (before ++ .store port value (.ok ()) :: behind))
    (hclears : ∀ e ∈ before, e.clears = false) (first : Datum) :
    .store port first (.ok ()) ∉ before := by
  intro hmem
  have hleft := (h.of_append_left.left_eq_some_iff hclears).2 hmem
  have hrefused := h.refused_iff.2 (Option.isSome_iff_exists.2 ⟨first, hleft⟩)
  cases hrefused

/-- A call that attempts to store a value in an output once only is not refused because of one. -/
theorem Obey.not_refused (h : Obey (fun _ ↦ none) events)
    (honce : events.countP (storesIn port) ≤ 1) :
    .store port value (.error .alreadySet) ∉ events := by
  intro hmem
  obtain ⟨before, behind, rfl⟩ := List.append_of_mem hmem
  have hsome := h.refused_iff.1 rfl
  obtain ⟨first, hfirst⟩ := Option.isSome_iff_exists.1 hsome
  have hstored : 0 < before.countP (storesIn port) :=
    List.countP_pos_iff.2 ⟨_, store_mem_of_left hfirst, decide_eq_true rfl⟩
  have hagain : 0 < (Event.store port value (.error .alreadySet) :: behind).countP
      (storesIn port) := List.countP_pos_iff.2 ⟨_, List.mem_cons_self, decide_eq_true rfl⟩
  rw [List.countP_append] at honce
  omega

end Event

section Inputs

variable {κ ω : Type} {i : Input κ} {source : κ}

theorem Input.read_of_source (h : i.source = some source) (published : κ → Option Datum) :
    i.read published = (published source).elim (.error .noData) .ok := by
  rw [read, h]
  dsimp only
  cases published source <;> rfl

theorem Input.hasData_of_source (h : i.source = some source) (published : κ → Option Datum) :
    i.hasData published = .ok (published source).isSome := by
  rw [hasData, h]

theorem Scene.input_of_source {scene : Scene κ ω} {index : Nat}
    (h : sources scene.ports index = some source) :
    ∃ i, scene.input index = .ok i ∧ i.source = some source := by
  obtain ⟨p, hp, hsource⟩ := Option.bind_eq_some_iff.1 h
  cases p with
  | input i =>
    refine ⟨i, ?_, hsource⟩
    rw [input, port_eq_ok_iff.2 hp]
    rfl
  | output o => cases hsource
  | control c => cases hsource

end Inputs

def heldAt {κ ω : Type} (ports : List (Port κ ω)) (index : Nat) : Option Datum :=
  ports[index]?.bind Port.published

namespace Scene

variable {κ ω : Type} {scene scene' : Scene κ ω} {index other : Nat}

theorem store_eq_ok {value : Datum} (h : scene.store index value = .ok scene') :
    ∃ o, scene.ports[index]? = some (.output o) ∧ o.value = none ∧
      scene' = scene.setPort index (.output { o with value := some value }) := by
  obtain ⟨o, ho, h⟩ := bind_eq_ok_iff.1 h
  obtain ⟨o', hstore, h⟩ := bind_eq_ok_iff.1 h
  cases h
  refine ⟨o, getElem?_of_output ho, ?_⟩
  unfold Output.store at hstore
  split at hstore
  · cases hstore
  · next hset =>
    cases hstore
    exact ⟨by simpa [Output.isSet] using hset, rfl⟩

/-- A value is stored in an output that was empty. -/
theorem held_of_store {value : Datum} (h : scene.store index value = .ok scene') :
    heldAt scene.ports index = none := by
  obtain ⟨o, hport, hnone, -⟩ := store_eq_ok h
  rw [heldAt, hport]
  exact hnone

theorem held_store {value : Datum} (h : scene.store index value = .ok scene') :
    heldAt scene'.ports other = if index = other then some value else heldAt scene.ports other := by
  obtain ⟨o, hport, -, rfl⟩ := store_eq_ok h
  unfold heldAt setPort
  split
  · next heq =>
    subst heq
    rw [List.getElem?_set_self (List.getElem?_eq_some_iff.1 hport).1]
    rfl
  · next hne => rw [List.getElem?_set_ne hne]

/-- A store is refused because of a value exactly if the output holds one. -/
theorem store_alreadySet_iff {value : Datum} {fault : PortFault}
    (h : scene.store index value = .error fault) :
    fault = .alreadySet ↔ (heldAt scene.ports index).isSome = true := by
  unfold store output port at h
  unfold heldAt
  cases hport : scene.ports[index]? with
  | none =>
    rw [hport] at h
    cases h
    simp
  | some p =>
    rw [hport] at h
    cases p with
    | input i =>
      cases h
      simp [Port.published]
    | control c =>
      cases h
      simp [Port.published]
    | output o =>
      simp only [Bind.bind, Except.bind, Output.store] at h
      split at h
      · next hset =>
        split at hset
        · next hset' =>
          cases hset
          cases h
          simpa [Output.isSet, Port.published] using hset'
        · cases hset
      · cases h

theorem held_clear (scene : Scene κ ω) (index other : Nat) :
    heldAt (scene.clear index).ports other =
      if index = other then none else heldAt scene.ports other := by
  unfold heldAt clear
  rw [List.getElem?_modify]
  cases scene.ports[other]? with
  | none => simp
  | some p =>
    by_cases h : index = other
    · cases p <;> simp [h, Port.clear, Port.published, Output.clear]
    · simp [h]

theorem held_clearAll (scene : Scene κ ω) (index : Nat) :
    heldAt scene.clearAll.ports index = none := by
  unfold heldAt clearAll
  rw [List.getElem?_map]
  cases scene.ports[index]? with
  | none => rfl
  | some p => cases p <;> rfl

theorem held_setValue (scene : Scene κ ω) (index : Nat) (value : Control.Value) (other : Nat) :
    heldAt (scene.set index value).1.ports other = heldAt scene.ports other := by
  unfold set
  split
  · rfl
  · next c hc =>
    split
    · rfl
    · have hport := getElem?_of_control hc
      have hlt := (List.getElem?_eq_some_iff.1 hport).1
      unfold heldAt setPort
      by_cases h : index = other
      · subst h
        rw [hport]
        simp only [List.getElem?_set_self hlt]
        rfl
      · simp only [List.getElem?_set_ne h]

end Scene

/-! ## Traces -/

namespace Act

variable {κ ω α : Type}

/-- What a call does with inputs and outputs when it is carried out. -/
def trace (published : κ → Option Datum) : Act ω α → Scene κ ω → List Event
  | done _, _ => []
  | read port next, scene =>
    let result := (scene.input port).bind (·.read published)
    .read port result :: (next result).trace published scene
  | hasData port next, scene =>
    let result := (scene.input port).bind (·.hasData published)
    .hasData port result :: (next result).trace published scene
  | store port datum next, scene =>
    match scene.store port datum with
    | .error fault =>
      .store port datum (.error fault) :: (next (.error fault)).trace published scene
    | .ok scene => .store port datum (.ok ()) :: (next (.ok ())).trace published scene
  | clear port next, scene => .clear port :: (next ()).trace published (scene.clear port)
  | clearAll next, scene => .clearAll :: (next ()).trace published scene.clearAll
  | value port next, scene =>
    (next ((scene.control port).map ControlPort.value)).trace published scene
  | set port v next, scene =>
    (next (scene.set port v).2.2).trace published (scene.set port v).1
  | offer queue item next, scene =>
    (next (scene.offer queue item).2).trace published (scene.offer queue item).1
  | take queue next, scene => (next (scene.take queue).2).trace published (scene.take queue).1
  | look queue next, scene => (next (scene.shape queue)).trace published scene
  | report _ next, scene => (next ()).trace published scene

variable (published : κ → Option Datum)

/-- What an output holds behind a call is what it held before, changed by the trace. -/
theorem held_run (act : Act ω α) (scene : Scene κ ω) (index : Nat) :
    heldAt (act.run published scene).2.1.ports index =
      (act.trace published scene).foldl (Event.leave index) (heldAt scene.ports index) := by
  induction act generalizing scene with
  | done result => rfl
  | read _ _ ih | hasData _ _ ih | value _ _ ih | look _ _ ih | report _ _ ih => exact ih _ scene
  | store port datum next ih =>
    simp only [run, trace]
    cases hstore : scene.store port datum with
    | error fault => exact ih _ scene
    | ok scene' =>
      dsimp only
      rw [ih, List.foldl_cons, Scene.held_store hstore]
      rfl
  | clear port next ih =>
    refine (ih _ _).trans ?_
    rw [scene.held_clear]
    rfl
  | clearAll next ih =>
    refine (ih _ _).trans ?_
    rw [scene.held_clearAll]
    rfl
  | set port v next ih =>
    simp only [run, trace]
    rw [ih, scene.held_setValue]
  | offer queue item next ih =>
    refine (ih _ _).trans ?_
    exact congrArg (fun ports ↦ List.foldl _ (heldAt ports index) _) (scene.ports_offer queue item)
  | take queue next ih =>
    refine (ih _ _).trans ?_
    exact congrArg (fun ports ↦ List.foldl _ (heldAt ports index) _) (scene.ports_take queue)

/-- Reads in a call get what was published when it began. -/
theorem tells_trace {source : κ} (act : Act ω α) (scene : Scene κ ω) {input : Nat}
    (hsource : sources scene.ports input = some source) :
    ∀ e ∈ act.trace published scene, e.Tells input (published source) := by
  induction act generalizing scene with
  | done result => nofun
  | read port next ih =>
    refine List.forall_mem_cons.2 ⟨?_, ih _ scene hsource⟩
    rintro rfl
    obtain ⟨i, hi, hread⟩ := Scene.input_of_source hsource
    rw [hi]
    exact Input.read_of_source hread published
  | hasData port next ih =>
    refine List.forall_mem_cons.2 ⟨?_, ih _ scene hsource⟩
    rintro rfl
    obtain ⟨i, hi, hread⟩ := Scene.input_of_source hsource
    rw [hi]
    exact Input.hasData_of_source hread published
  | value _ _ ih | look _ _ ih | report _ _ ih => exact ih _ scene hsource
  | store port datum next ih =>
    simp only [trace]
    split
    · exact List.forall_mem_cons.2 ⟨trivial, ih _ scene hsource⟩
    · next scene' hstore =>
      refine List.forall_mem_cons.2 ⟨trivial, ih _ scene' ?_⟩
      rw [sources_congr (Scene.frames_store hstore), hsource]
  | clear port next ih =>
    refine List.forall_mem_cons.2 ⟨trivial, ih _ (scene.clear port) ?_⟩
    exact (congrFun (sources_congr (frames_modify_clear scene.ports port)) input).trans hsource
  | clearAll next ih =>
    refine List.forall_mem_cons.2 ⟨trivial, ih _ scene.clearAll ?_⟩
    exact (congrFun (sources_map_clear scene.ports) input).trans hsource
  | set port v next ih =>
    refine ih _ (scene.set port v).1 ?_
    rw [sources_congr (scene.frames_setValue port v), hsource]
  | offer queue item next ih =>
    refine ih _ (scene.offer queue item).1 ?_
    rw [scene.ports_offer, hsource]
  | take queue next ih =>
    refine ih _ (scene.take queue).1 ?_
    rw [scene.ports_take, hsource]

/-- Stores in a call are refused exactly where an output holds a value. -/
theorem obey_trace (act : Act ω α) (scene : Scene κ ω) :
    Event.Obey (heldAt scene.ports) (act.trace published scene) := by
  induction act generalizing scene with
  | done result => trivial
  | read _ _ ih | hasData _ _ ih => exact ⟨nofun, ih _ scene⟩
  | value _ _ ih | look _ _ ih | report _ _ ih => exact ih _ scene
  | store port datum next ih =>
    simp only [trace]
    split
    · next fault hstore =>
      refine ⟨?_, ih _ scene⟩
      rintro port' datum' result ⟨⟩
      rw [Except.error.injEq]
      exact Scene.store_alreadySet_iff hstore
    · next scene' hstore =>
      constructor
      · rintro port' datum' result ⟨⟩
        rw [Scene.held_of_store hstore]
        exact iff_of_false nofun nofun
      · have hheld : heldAt scene'.ports =
            fun index ↦ Event.leave index (heldAt scene.ports index) (.store port datum (.ok ())) :=
          funext fun index ↦ Scene.held_store hstore
        exact hheld ▸ ih _ scene'
  | clear port next ih =>
    have hheld : heldAt (scene.clear port).ports =
        fun index ↦ Event.leave index (heldAt scene.ports index) (.clear port) :=
      funext fun index ↦ scene.held_clear port index
    exact ⟨nofun, hheld ▸ ih _ _⟩
  | clearAll next ih =>
    have hheld : heldAt scene.clearAll.ports =
        fun index ↦ Event.leave index (heldAt scene.ports index) .clearAll :=
      funext scene.held_clearAll
    exact ⟨nofun, hheld ▸ ih _ _⟩
  | set port v next ih =>
    have hheld : heldAt (scene.set port v).1.ports = heldAt scene.ports :=
      funext fun index ↦ scene.held_setValue port v index
    exact hheld ▸ ih _ _
  | offer queue item next ih => exact scene.ports_offer queue item ▸ ih _ (scene.offer queue item).1
  | take queue next ih => exact scene.ports_take queue ▸ ih _ (scene.take queue).1

end Act

end SignalFlow
