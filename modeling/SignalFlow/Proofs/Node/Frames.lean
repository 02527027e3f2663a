import SignalFlow.Graph.Binding
import SignalFlow.Node.Act
import SignalFlow.Proofs.Except

/-!
# What ports keep

The frame of a port is all of it but the value that it holds. A call stores and clears outputs and
sets controls. That changes the frame of no port.
-/

namespace SignalFlow

variable {κ ω α : Type}

/-- A port without a value: its kind and type, and the source of an input. -/
inductive Frame (κ : Type) where
  | input (type : DataType) (source : Option κ)
  | output (type : DataType)
  | control (storage : Control.Storage)
deriving DecidableEq, Repr

/-- The frame without the source that an input is attached to. -/
def Frame.detached : Frame κ → Frame κ
  | .input type _ => .input type none
  | .output type => .output type
  | .control storage => .control storage

def Frame.source? : Frame κ → Option κ
  | .input _ source => source
  | .output _ | .control _ => none

def Port.frame : Port κ ω → Frame κ
  | .input i => .input i.type i.source
  | .output o => .output o.type
  | .control c => .control c.storage

def frames (ports : List (Port κ ω)) : List (Frame κ) :=
  ports.map Port.frame

/-- The kinds and types of some ports. -/
def shapes (ports : List (Port κ ω)) : List (Frame κ) :=
  (frames ports).map Frame.detached

theorem getElem?_frames (ports : List (Port κ ω)) (index : Nat) :
    (frames ports)[index]? = ports[index]?.map Port.frame :=
  List.getElem?_map ..

theorem frame_clear (p : Port κ ω) : p.clear.frame = p.frame := by
  cases p <;> rfl

/-- Replacing a port changes no image of the ports if it does not change that of the port. -/
theorem map_set_of_eq {α β : Type} {xs : List α} {index : Nat} {x y : α} (f : α → β)
    (hx : xs[index]? = some x) (heq : f y = f x) : (xs.set index y).map f = xs.map f := by
  apply List.ext_getElem?
  intro k
  rw [List.getElem?_map, List.getElem?_map, List.getElem?_set]
  split
  · next h =>
    subst h
    rw [if_pos (List.getElem?_eq_some_iff.1 hx).1, hx]
    exact congrArg some heq
  · rfl

/-- Changes at two places commute, and so do changes at one place that commute there. -/
theorem modify_comm {α : Type} (xs : List α) {i j : Nat} (f f' : α → α)
    (h : i = j → ∀ x, f' (f x) = f (f' x)) :
    (xs.modify i f).modify j f' = (xs.modify j f').modify i f := by
  by_cases hij : i = j
  · subst hij
    rw [List.modify_modify_eq, List.modify_modify_eq]
    congr 1
    exact funext (h rfl)
  · exact List.modify_modify_ne f f' xs hij

theorem frames_set {ports : List (Port κ ω)} {index : Nat} {p p' : Port κ ω}
    (hp : ports[index]? = some p) (hframe : p'.frame = p.frame) :
    frames (ports.set index p') = frames ports :=
  map_set_of_eq Port.frame hp hframe

/-- An input may be attached without changing the kind or type of any port. -/
theorem shapes_set {ports : List (Port κ ω)} {index : Nat} {p p' : Port κ ω}
    (hp : ports[index]? = some p) (hframe : p'.frame.detached = p.frame.detached) :
    shapes (ports.set index p') = shapes ports := by
  rw [shapes, shapes, frames, frames, List.map_map, List.map_map]
  exact map_set_of_eq (Frame.detached ∘ Port.frame) hp hframe

theorem frames_modify_clear (ports : List (Port κ ω)) (index : Nat) :
    frames (ports.modify index Port.clear) = frames ports := by
  apply List.ext_getElem?
  intro k
  rw [getElem?_frames, getElem?_frames, List.getElem?_modify]
  cases ports[k]? with
  | none => rfl
  | some p =>
    by_cases h : index = k
    · simp [h, frame_clear]
    · simp [h]

theorem frames_map_clear (ports : List (Port κ ω)) :
    frames (ports.map Port.clear) = frames ports := by
  rw [frames, List.map_map]
  exact List.map_congr_left fun p _ ↦ frame_clear p

/-- A port with the shape of a control is one. -/
theorem exists_control_of_shape {ports : List (Port κ ω)} {index : Nat}
    {storage : Control.Storage} (h : (shapes ports)[index]? = some (.control storage)) :
    ∃ c, ports[index]? = some (.control c) ∧ c.storage = storage := by
  rw [shapes, List.getElem?_map, getElem?_frames, Option.map_map, Option.map_eq_some_iff] at h
  obtain ⟨p, hp, hframe⟩ := h
  cases p with
  | control c => exact ⟨c, hp, by simpa [Port.frame, Frame.detached] using hframe⟩
  | input i => simp [Port.frame, Frame.detached] at hframe
  | output o => simp [Port.frame, Frame.detached] at hframe

theorem shape_of_control {ports : List (Port κ ω)} {index : Nat} {c : ControlPort ω}
    (h : ports[index]? = some (.control c)) :
    (shapes ports)[index]? = some (.control c.storage) := by
  rw [shapes, List.getElem?_map, getElem?_frames, h]
  rfl

namespace Scene

variable {scene scene' : Scene κ ω} {index : Nat}

theorem port_eq_ok_iff {p : Port κ ω} :
    scene.port index = .ok p ↔ scene.ports[index]? = some p := by
  unfold port
  cases scene.ports[index]? <;> simp

theorem getElem?_of_output {o : Output} (h : scene.output index = .ok o) :
    scene.ports[index]? = some (.output o) := by
  obtain ⟨p, hp, h⟩ := bind_eq_ok_iff.1 h
  cases p with
  | output o' =>
    cases h
    exact port_eq_ok_iff.1 hp
  | input i => cases h
  | control c => cases h

theorem getElem?_of_control {c : ControlPort ω} (h : scene.control index = .ok c) :
    scene.ports[index]? = some (.control c) := by
  obtain ⟨p, hp, h⟩ := bind_eq_ok_iff.1 h
  cases p with
  | control c' =>
    cases h
    exact port_eq_ok_iff.1 hp
  | input i => cases h
  | output o => cases h

theorem frames_store {value : Datum} (h : scene.store index value = .ok scene') :
    frames scene'.ports = frames scene.ports := by
  obtain ⟨o, ho, h⟩ := bind_eq_ok_iff.1 h
  obtain ⟨o', ho', h⟩ := bind_eq_ok_iff.1 h
  cases h
  refine frames_set (getElem?_of_output ho) ?_
  unfold Output.store at ho'
  split at ho'
  · cases ho'
  · cases ho'
    rfl

theorem frames_setValue (scene : Scene κ ω) (index : Nat) (value : Control.Value) :
    frames (scene.set index value).1.ports = frames scene.ports := by
  unfold set
  split
  · rfl
  · next c hc =>
    split
    · rfl
    · exact frames_set (getElem?_of_control hc) rfl

theorem ports_offer (scene : Scene κ ω) (id : QueueId) (item : Datum) :
    (scene.offer id item).1.ports = scene.ports := by
  unfold offer
  split <;> rfl

theorem ports_take (scene : Scene κ ω) (id : QueueId) :
    (scene.take id).1.ports = scene.ports := by
  unfold take
  split <;> rfl

end Scene

/-- A call keeps the frames of the ports. -/
theorem Act.frames_run (published : κ → Option Datum) (act : Act ω α) (scene : Scene κ ω) :
    frames (act.run published scene).2.1.ports = frames scene.ports := by
  induction act generalizing scene with
  | done result => rfl
  | read port next ih => exact ih _ scene
  | hasData port next ih => exact ih _ scene
  | store port value next ih =>
    simp only [run]
    split
    · exact ih _ scene
    · next hstore => rw [ih, Scene.frames_store hstore]
  | clear port next ih => exact (ih _ _).trans (frames_modify_clear scene.ports port)
  | clearAll next ih => exact (ih _ _).trans (frames_map_clear scene.ports)
  | value port next ih => exact ih _ scene
  | set port v next ih =>
    simp only [run]
    rw [ih, Scene.frames_setValue]
  | offer queue item next ih =>
    simp only [run]
    rw [ih, Scene.ports_offer]
  | take queue next ih =>
    simp only [run]
    rw [ih, Scene.ports_take]
  | look queue next ih => exact ih _ scene
  | report notice next ih =>
    simp only [run]
    exact ih _ scene

end SignalFlow
