import SignalFlow.Proofs.Node.Frames

/-!
# What a value from outside stores

A value is converted and validated before it is stored, and the observer of the control is told
when it has been. So whatever refuses the value leaves the ports as they are, and an observer that
gives up leaves the new data, and remembers it. What comes of a value depends on the control that
it is for only, and the frames of the ports stay as they are.

The source of an input is part of its frame. So neither a call nor a value from outside that is
set to a control attaches an input or detaches it.
-/

namespace SignalFlow

open Control

variable {κ ω α : Type}

/-- An observer remembers what it is told, in the order in which it is told. -/
theorem Observer.foldl_tell {t : Storage} (o : Observer t ω) (past : List t.Carrier) :
    past.foldl (fun o data ↦ (o.tell data).1) o = { o with told := o.told ++ past } := by
  induction past generalizing o with
  | nil => simp
  | cons first rest ih =>
    rw [List.foldl_cons, ih]
    simp [tell]

/-- An observer with a state of its own does what it does in the state to which all that it was
told has led. -/
theorem Observer.reaction_ofState {t : Storage} {S : Type} (step : S → t.Carrier → S × Reaction ω)
    (start : S) (past : List t.Carrier) (data : t.Carrier) :
    ((past.foldl (fun o data ↦ (o.tell data).1) (ofState step start)).tell data).2 =
      (step (past.foldl (fun state data ↦ (step state data).1) start) data).2 := by
  rw [foldl_tell]
  rfl

/-- Puts data into a control of its type, and tells the observer of them. -/
def Port.hold (data : (t : Storage) × t.Carrier) : Port κ ω → Port κ ω
  | .control c =>
    if same : data.1 = c.storage then .control (c.set (same ▸ data.2)).1 else .control c
  | p => p

/-- What the observer of a control does when it is told of data. -/
def Port.reaction (data : (t : Storage) × t.Carrier) : Port κ ω → Reaction ω
  | .control c => if same : data.1 = c.storage then (c.set (same ▸ data.2)).2 else ⟨[], none⟩
  | _ => ⟨[], none⟩

namespace Port

variable {data data' : (t : Storage) × t.Carrier} {c : ControlPort ω}

theorem hold_control_of_eq (same : data.1 = c.storage) :
    (.control c : Port κ ω).hold data = .control (c.set (same ▸ data.2)).1 :=
  dif_pos same

theorem hold_control_of_ne (h : data.1 ≠ c.storage) :
    (.control c : Port κ ω).hold data = .control c :=
  dif_neg h

theorem frame_hold (data : (t : Storage) × t.Carrier) (p : Port κ ω) :
    (p.hold data).frame = p.frame := by
  cases p with
  | control c =>
    by_cases same : data.1 = c.storage
    · rw [hold_control_of_eq same]
      rfl
    · rw [hold_control_of_ne same]
  | input i => rfl
  | output o => rfl

theorem hold_eq_self {p : Port κ ω} (h : p.frame.detached ≠ .control data.1) : p.hold data = p := by
  cases p with
  | control c => exact hold_control_of_ne fun same ↦ h (congrArg Frame.control same.symm)
  | input i => rfl
  | output o => rfl

end Port

section Ports

variable {ports : List (Port κ ω)} {index : Nat} {data : (t : Storage) × t.Carrier}

/-- What an observer among some ports does when it is told of data. -/
def reactionOf (ports : List (Port κ ω)) (index : Nat) (data : (t : Storage) × t.Carrier) :
    Reaction ω :=
  ports[index]?.elim ⟨[], none⟩ (Port.reaction data)

/-- What is seen of ports stays if holding data does not change what is seen of a port. -/
theorem map_modify_hold {β : Type} {see : Port κ ω → β} (h : ∀ p, see (p.hold data) = see p)
    (ports : List (Port κ ω)) (index : Nat) :
    (ports.modify index (Port.hold data)).map see = ports.map see := by
  apply List.ext_getElem?
  intro k
  rw [List.getElem?_map, List.getElem?_map, List.getElem?_modify]
  cases ports[k]? with
  | none => rfl
  | some p =>
    by_cases hk : index = k
    · simp [hk, h]
    · simp [hk]

theorem frames_modify_hold (ports : List (Port κ ω)) (index : Nat)
    (data : (t : Storage) × t.Carrier) :
    frames (ports.modify index (Port.hold data)) = frames ports :=
  map_modify_hold (Port.frame_hold data) ports index

theorem shapes_modify_hold (ports : List (Port κ ω)) (index : Nat)
    (data : (t : Storage) × t.Carrier) :
    shapes (ports.modify index (Port.hold data)) = shapes ports :=
  congrArg (List.map Frame.detached) (frames_modify_hold ports index data)

/-- Only a control of the type of the data holds it. -/
theorem modify_hold_eq_self (h : (shapes ports)[index]? ≠ some (.control data.1)) :
    ports.modify index (Port.hold data) = ports := by
  apply List.ext_getElem?
  intro k
  rw [List.getElem?_modify]
  cases hp : ports[k]? with
  | none => rfl
  | some p =>
    by_cases hk : index = k
    · subst hk
      have hshape : (shapes ports)[index]? = some p.frame.detached := by
        rw [shapes, List.getElem?_map, getElem?_frames, hp]
        rfl
      have hself : p.hold data = p :=
        Port.hold_eq_self fun hframe ↦ h (hshape.trans (congrArg some hframe))
      simp [hself]
    · simp [hk]

end Ports

namespace Binding

variable {b : Binding} {ports : List (Port κ ω)} {value : Value}

/-- What is wrong with a port of another shape than that of the bound control. -/
def mismatch (b : Binding) : Option (Frame κ) → Fault
  | some (.control storage) => .wrongControlType b.storage storage
  | _ => .notAControl b.port

/-- A binding to another port refuses all values. -/
theorem apply_eq_of_not_control (h : (shapes ports)[b.port]? ≠ some (.control b.storage))
    (value : Value) :
    b.apply ports value = (ports, [], .error (b.mismatch (shapes ports)[b.port]?)) := by
  unfold apply
  split
  · next c hc =>
    have hne : b.storage ≠ c.storage := fun same ↦ h (same ▸ shape_of_control hc)
    rw [dif_neg hne, shape_of_control hc]
    rfl
  · next hnone =>
    have hmismatch : b.mismatch (shapes ports)[b.port]? = .notAControl b.port := by
      unfold mismatch
      split
      · next storage hstorage =>
        obtain ⟨c, hc, -⟩ := exists_control_of_shape hstorage
        exact absurd hc (hnone c)
      · rfl
    rw [hmismatch]

/-- The bound control holds what is accepted, and its observer is told. -/
theorem apply_eq_of_control (h : (shapes ports)[b.port]? = some (.control b.storage))
    (value : Value) : b.apply ports value =
      match b.accept value with
      | .error fault => (ports, [], .error fault)
      | .ok data => (ports.modify b.port (Port.hold ⟨b.storage, data⟩),
          (reactionOf ports b.port ⟨b.storage, data⟩).reports,
          match (reactionOf ports b.port ⟨b.storage, data⟩).panic with
          | none => .ok ()
          | some panic => .error (.panicked panic.text)) := by
  obtain ⟨c, hc, hstorage⟩ := exists_control_of_shape h
  unfold apply reactionOf
  simp only [hc, dif_pos hstorage.symm, Option.elim_some, Port.reaction]
  cases b.accept value with
  | error fault => rfl
  | ok data =>
    dsimp only
    congr 1
    apply List.ext_getElem?
    intro k
    rw [List.getElem?_set, List.getElem?_modify]
    by_cases hk : b.port = k
    · subst hk
      rw [if_pos rfl, if_pos (List.getElem?_eq_some_iff.1 hc).1, hc]
      simp [Port.hold, hstorage, ControlPort.set]
    · simp [hk]

/-- What is accepted is all that a value changes. -/
theorem fst_apply (b : Binding) (ports : List (Port κ ω)) (value : Value) :
    (b.apply ports value).1 =
      match b.accept value with
      | .error _ => ports
      | .ok data => ports.modify b.port (Port.hold ⟨b.storage, data⟩) := by
  by_cases h : (shapes ports)[b.port]? = some (.control b.storage)
  · rw [apply_eq_of_control h]
    cases b.accept value <;> rfl
  · rw [apply_eq_of_not_control h]
    cases b.accept value with
    | error fault => rfl
    | ok data => exact (modify_hold_eq_self h).symm

/-- A value from outside keeps the frames of the ports. -/
theorem frames_apply (b : Binding) (ports : List (Port κ ω)) (value : Value) :
    frames (b.apply ports value).1 = frames ports := by
  rw [fst_apply]
  split
  · rfl
  · exact frames_modify_hold ..

/-- What comes of a value depends on the port that it is for only. -/
theorem snd_apply_congr {ports' : List (Port κ ω)} (h : ports'[b.port]? = ports[b.port]?)
    (value : Value) : (b.apply ports' value).2 = (b.apply ports value).2 := by
  unfold apply
  rw [h]
  split
  · split
    · split <;> rfl
    · rfl
  · rfl

/-- What comes of a value that is not taken depends on the kind and type of the port only. -/
theorem snd_apply_of_refused {ports' : List (Port κ ω)}
    (hshape : (shapes ports')[b.port]? = (shapes ports)[b.port]?)
    (hrefused : (shapes ports)[b.port]? = some (.control b.storage) →
      ∀ data, b.accept value ≠ .ok data) : (b.apply ports' value).2 = (b.apply ports value).2 := by
  by_cases hcontrol : (shapes ports)[b.port]? = some (.control b.storage)
  · rw [apply_eq_of_control hcontrol, apply_eq_of_control (hshape.trans hcontrol)]
    cases haccept : b.accept value with
    | error fault => rfl
    | ok data => exact absurd haccept (hrefused hcontrol data)
  · rw [apply_eq_of_not_control hcontrol, apply_eq_of_not_control (hshape ▸ hcontrol), hshape]

end Binding

/-- The source that a port is attached to, if it is an input. -/
def Port.source? : Port κ ω → Option κ
  | .input i => i.source
  | .output _ | .control _ => none

/-- The source that the port at an index is attached to. -/
def sources (ports : List (Port κ ω)) (index : Nat) : Option κ :=
  ports[index]?.bind Port.source?

theorem sources_congr {ports ports' : List (Port κ ω)} (h : frames ports' = frames ports) :
    sources ports' = sources ports := by
  have hsource (p : Port κ ω) : p.source? = p.frame.source? := by
    cases p <;> rfl
  funext k
  have hk := congrArg (·[k]?) h
  simp only [getElem?_frames] at hk
  unfold sources
  rcases hp : ports[k]? with _ | p <;> rcases hp' : ports'[k]? with _ | p'
  · rfl
  · rw [hp, hp'] at hk
    cases hk
  · rw [hp, hp'] at hk
    cases hk
  · rw [hp, hp'] at hk
    change p'.source? = p.source?
    rw [hsource, hsource, Option.some.inj hk]

theorem sources_map_clear (ports : List (Port κ ω)) :
    sources (ports.map Port.clear) = sources ports :=
  sources_congr (frames_map_clear ports)

theorem sources_ofSpecs (specs : List (PortSpec ω)) (index : Nat) :
    sources (specs.map (PortSpec.port (κ := κ))) index = none := by
  unfold sources
  rw [List.getElem?_map]
  cases specs[index]? with
  | none => rfl
  | some spec => cases spec <;> rfl

theorem Act.sources_run (published : κ → Option Datum) (act : Act ω α) (scene : Scene κ ω) :
    sources (act.run published scene).2.1.ports = sources scene.ports :=
  sources_congr (act.frames_run published scene)

/-- A value from outside attaches no input and detaches none. -/
theorem Binding.sources_apply (b : Binding) (ports : List (Port κ ω)) (value : Control.Value) :
    sources (b.apply ports value).1 = sources ports :=
  sources_congr (b.frames_apply ports value)

end SignalFlow
