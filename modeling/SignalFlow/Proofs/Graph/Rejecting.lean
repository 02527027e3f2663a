import SignalFlow.Demo.Node
import SignalFlow.Proofs.Graph.Cycle
import SignalFlow.Proofs.Graph.Targets

/-!
# What a rejected value leaves behind

A value for a control is rejected if the thread has no such node, if the port is not the control
that was bound, or if the value is not accepted. Then nothing changes, and a batch does what it
does without it. A value is also rejected if the observer of the control gives up. But an observer
is told of what has been stored, so the control holds the new data, and the observer has been told
of them. All other controls are as without it. So are the reports of the other deliveries, but for
those that store into the same control: they store what they store without it, but what the observer
does may depend on what it was told before.
-/

namespace SignalFlow

open Control

namespace Delivery

variable {d : Delivery} {run : Run}

def ref (d : Delivery) : PortRef :=
  ⟨d.binding.node, d.binding.port⟩

/-- The data that a thread has for the control, if it has the node and the value is accepted. -/
def accepted? (run : Run) (d : Delivery) : Option ((t : Storage) × t.Carrier) :=
  if d.binding.node ∈ run.order then
    match d.binding.accept d.value with
    | .error _ => none
    | .ok data => some ⟨d.binding.storage, data⟩
  else none

/-- Whether a thread has data of a type for a control. -/
def Stores (run : Run) (ref : PortRef) (t : Storage) (d : Delivery) : Prop :=
  d.ref = ref ∧ d.binding.storage = t ∧ (d.accepted? run).isSome

instance (run : Run) (ref : PortRef) (t : Storage) (d : Delivery) :
    Decidable (d.Stores run ref t) :=
  inferInstanceAs (Decidable (_ ∧ _ ∧ _))

theorem accepted?_eq_some_iff {data : (t : Storage) × t.Carrier} :
    d.accepted? run = some data ↔ d.binding.node ∈ run.order ∧
      ∃ x, d.binding.accept d.value = .ok x ∧ data = ⟨d.binding.storage, x⟩ := by
  unfold accepted?
  by_cases hnode : d.binding.node ∈ run.order
  · cases d.binding.accept d.value <;> simp [hnode, eq_comm]
  · simp [hnode]

end Delivery

namespace Graph

variable {σ ω : Type} {g g' : Graph σ ω} {run : Run} {d e : Delivery} {fault : Fault}
  {ref ref' : PortRef} {data data' : (t : Storage) × t.Carrier}

/-- Puts data into a control of its type, and tells the observer of them. -/
def hold (g : Graph σ ω) (ref : PortRef) (data : (t : Storage) × t.Carrier) : Graph σ ω :=
  g.modifyNode ref.node fun n ↦ { n with ports := n.ports.modify ref.port (Port.hold data) }

/-- What an observer in the graph does when it is told of data. -/
def reactionAt (g : Graph σ ω) (ref : PortRef) (data : (t : Storage) × t.Carrier) : Reaction ω :=
  (g.slot? ref.node).elim ⟨[], none⟩ fun slot ↦ reactionOf slot.node.ports ref.port data

theorem slot?_hold (g : Graph σ ω) (ref : PortRef) (data : (t : Storage) × t.Carrier)
    (id : NodeId) : (g.hold ref data).slot? id = if ref.node = id then
      (g.slot? id).map fun slot ↦ { slot with node := { slot.node with
        ports := slot.node.ports.modify ref.port (Port.hold data) } } else g.slot? id :=
  slot?_modifyNode g _ id _

theorem shapeOf_hold (g : Graph σ ω) (ref : PortRef) (data : (t : Storage) × t.Carrier) :
    (g.hold ref data).shapeOf = g.shapeOf :=
  shapeOf_congr (seen_modifySlot g ref.node fun _ _ ↦ shapes_modify_hold ..)

theorem hold_eq_self (h : g.shapeOf ref ≠ some (.control data.1)) : g.hold ref data = g := by
  refine modifyNode_eq_self fun slot hslot ↦ ?_
  rw [shapeOf, hslot, Option.bind_some] at h
  rw [modify_hold_eq_self h]

theorem storedAt_hold (h : g.shapeOf ref = some (.control data.1)) :
    (g.hold ref data).storedAt ref = some data := by
  obtain ⟨slot, hslot, hshape⟩ := Option.bind_eq_some_iff.1 h
  rw [storedAt, slot?_hold, if_pos rfl, hslot]
  exact stored_modify_hold hshape

theorem storedAt_hold_of_ne (g : Graph σ ω) (data : (t : Storage) × t.Carrier) (h : ref ≠ ref') :
    (g.hold ref data).storedAt ref' = g.storedAt ref' := by
  obtain ⟨node, port⟩ := ref
  obtain ⟨node', port'⟩ := ref'
  unfold storedAt
  rw [slot?_hold]
  split
  · next hnode =>
    have hport : port ≠ port' := fun hport ↦ h ((PortRef.mk.injEq ..).mpr ⟨hnode, hport⟩)
    rw [Option.bind_map]
    exact congrArg _ (funext fun slot ↦ stored_modify_hold_of_ne hport)
  · rfl

def portAt (g : Graph σ ω) (ref : PortRef) : Option (Port PortRef ω) :=
  (g.slot? ref.node).bind fun slot ↦ slot.node.ports[ref.port]?

/-- The graph with another port at a place. -/
def put (g : Graph σ ω) (ref : PortRef) (p : Port PortRef ω) : Graph σ ω :=
  g.modifyNode ref.node fun n ↦ { n with ports := n.ports.modify ref.port fun _ ↦ p }

theorem put_hold (g : Graph σ ω) (ref : PortRef) (data : (t : Storage) × t.Carrier)
    (p : Port PortRef ω) : (g.hold ref data).put ref p = g.put ref p := by
  have hports (ports : List (Port PortRef ω)) :
      (ports.modify ref.port (Port.hold data)).modify ref.port (fun _ ↦ p) =
        ports.modify ref.port fun _ ↦ p :=
    List.modify_modify_eq ..
  unfold put hold modifyNode
  simp only [List.modify_modify_eq, Function.comp_def, hports]

theorem put_hold_of_ne (g : Graph σ ω) (data : (t : Storage) × t.Carrier) (p : Port PortRef ω)
    (h : ref' ≠ ref) : (g.hold ref' data).put ref p = (g.put ref p).hold ref' data := by
  obtain ⟨node, port⟩ := ref
  obtain ⟨node', port'⟩ := ref'
  refine g.modifyNode_comm _ _ fun hnode n ↦ ?_
  have hport : port' ≠ port := fun hport ↦ h ((PortRef.mk.injEq ..).mpr ⟨hnode, hport⟩)
  have hports := modify_comm n.ports (Port.hold data) (fun _ ↦ p) fun hsame ↦ absurd hsame hport
  exact congrArg (fun ports ↦ { n with ports }) hports

theorem portAt_put_of_ne (g : Graph σ ω) (p : Port PortRef ω) (h : ref ≠ ref') :
    (g.put ref p).portAt ref' = g.portAt ref' := by
  obtain ⟨node, port⟩ := ref
  obtain ⟨node', port'⟩ := ref'
  unfold portAt put
  rw [slot?_modifyNode]
  split
  · next hnode =>
    have hport : port ≠ port' := fun hport ↦ h ((PortRef.mk.injEq ..).mpr ⟨hnode, hport⟩)
    rw [Option.bind_map]
    exact congrArg _ (funext fun slot ↦ List.getElem?_modify_ne _ _ hport)
  · rfl

theorem isSome_slot?_put (g : Graph σ ω) (ref : PortRef) (p : Port PortRef ω) (id : NodeId) :
    ((g.put ref p).slot? id).isSome = (g.slot? id).isSome := by
  rw [put, slot?_modifyNode]
  split
  · exact Option.isSome_map
  · rfl

/-- A thread takes a value for a control of the bound type. -/
structure Takes (g : Graph σ ω) (run : Run) (d : Delivery) (data : (t : Storage) × t.Carrier) :
    Prop where
  targets : g.Targets d.binding
  accepted : d.accepted? run = some data

theorem attempt_eq (g : Graph σ ω) (d : Delivery) : g.attempt d =
    match d.binding.accept d.value with
    | .error _ => g
    | .ok data => g.hold d.ref ⟨d.binding.storage, data⟩ := by
  unfold attempt
  simp only [Binding.fst_apply]
  cases d.binding.accept d.value with
  | error fault => exact modifyNode_eq_self fun _ _ ↦ rfl
  | ok data => rfl

/-- What a delivery stores is all that it changes. -/
theorem fst_deliver_eq (g : Graph σ ω) (run : Run) (d : Delivery) :
    (g.deliver run d).1 = (d.accepted? run).elim g (g.hold d.ref ·) := by
  have hattempt : (g.deliver run d).1 = if d.binding.node ∈ run.order then g.attempt d else g := by
    rw [fst_deliver]
    cases hslot : g.slot? d.binding.node with
    | none =>
      have hsame : g.attempt d = g := modifyNode_eq_self fun slot hsome ↦ by
        rw [hslot] at hsome
        cases hsome
      simp [hsame]
    | some slot => simp
  rw [hattempt, attempt_eq, Delivery.accepted?]
  split
  · cases d.binding.accept d.value <;> rfl
  · rfl

theorem shapeOf_deliver (g : Graph σ ω) (run : Run) (d : Delivery) :
    (g.deliver run d).1.shapeOf = g.shapeOf := by
  rw [fst_deliver_eq]
  cases d.accepted? run with
  | none => rfl
  | some data => exact g.shapeOf_hold d.ref data

/-- A control stores what a delivery has for it, and otherwise what it stored before. -/
theorem storedAt_deliver {t : Storage} (h : g.shapeOf ref = some (.control t)) (run : Run)
    (d : Delivery) : (g.deliver run d).1.storedAt ref =
      if d.Stores run ref t then d.accepted? run else g.storedAt ref := by
  rw [fst_deliver_eq]
  cases haccepted : d.accepted? run with
  | none => simp [Delivery.Stores, haccepted]
  | some data =>
    obtain ⟨-, x, -, rfl⟩ := Delivery.accepted?_eq_some_iff.1 haccepted
    rw [Option.elim_some]
    split
    · next hstores =>
      obtain ⟨rfl, rfl, -⟩ := hstores
      exact storedAt_hold h
    · next hstores =>
      by_cases href : d.ref = ref
      · have hne : g.shapeOf d.ref ≠ some (.control d.binding.storage) := by
          rw [href, h]
          rintro ⟨⟩
          exact hstores ⟨href, rfl, by rw [haccepted]; rfl⟩
        rw [hold_eq_self hne]
      · exact storedAt_hold_of_ne g _ href

/-- A value that is taken is stored, and the observer is told. -/
theorem deliver_of_takes (h : g.Takes run d data) : g.deliver run d = (g.hold d.ref data,
    d.reports ((g.reactionAt d.ref data).reports,
      match (g.reactionAt d.ref data).panic with
      | none => .ok ()
      | some panic => .error (.panicked panic.text))) := by
  refine Prod.ext ?_ ?_
  · rw [fst_deliver_eq, h.accepted]
    rfl
  · obtain ⟨hnode, x, haccept, rfl⟩ := Delivery.accepted?_eq_some_iff.1 h.accepted
    obtain ⟨slot, hslot, hshape⟩ := Option.bind_eq_some_iff.1 h.targets
    change g.slot? d.binding.node = some slot at hslot
    change (shapes slot.node.ports)[d.binding.port]? = _ at hshape
    rw [snd_deliver, if_pos hnode, hslot, Option.elim_some, Binding.apply_eq_of_control hshape,
      haccept, reactionAt, show g.slot? d.ref.node = some slot from hslot]
    rfl

/-- A value that is not taken is refused, and nothing changes. -/
theorem exists_deliver_eq_of_not_takes (h : ∀ data, ¬ g.Takes run d data) :
    ∃ fault, g.deliver run d = (g, [d.refusal fault]) := by
  have hsame : (g.deliver run d).1 = g := by
    rw [fst_deliver_eq]
    cases haccepted : d.accepted? run with
    | none => rfl
    | some data =>
      obtain ⟨-, x, -, rfl⟩ := Delivery.accepted?_eq_some_iff.1 haccepted
      exact hold_eq_self fun htargets ↦ h _ ⟨htargets, haccepted⟩
  suffices hreports : ∃ fault, (g.deliver run d).2 = [d.refusal fault] by
    obtain ⟨fault, hfault⟩ := hreports
    exact ⟨fault, Prod.ext hsame hfault⟩
  rw [snd_deliver]
  split
  · next hnode =>
    cases hslot : g.slot? d.binding.node with
    | none => exact ⟨_, rfl⟩
    | some slot =>
      rw [Option.elim_some]
      by_cases hshape : (shapes slot.node.ports)[d.binding.port]? =
          some (.control d.binding.storage)
      · rw [Binding.apply_eq_of_control hshape]
        cases haccept : d.binding.accept d.value with
        | error fault => exact ⟨fault, rfl⟩
        | ok x =>
          have htargets : g.Targets d.binding := by
            rw [Targets, shapeOf, hslot]
            exact hshape
          have haccepted := Delivery.accepted?_eq_some_iff.2 ⟨hnode, x, haccept, rfl⟩
          exact absurd ⟨htargets, haccepted⟩ (h ⟨_, x⟩)
      · rw [Binding.apply_eq_of_not_control hshape]
        exact ⟨_, rfl⟩
  · exact ⟨_, rfl⟩

/-- The graph behind deliveries. -/
def served (g : Graph σ ω) (run : Run) (deliveries : List Delivery) : Graph σ ω :=
  (deliverAll run deliveries g).1

theorem deliverAll_append (run : Run) (before after : List Delivery) (g : Graph σ ω) :
    deliverAll run (before ++ after) g = ((g.served run before).served run after,
      (deliverAll run before g).2 ++ (deliverAll run after (g.served run before)).2) := by
  induction before generalizing g with
  | nil => rfl
  | cons d before ih =>
    unfold served
    simp only [List.cons_append, deliverAll, ih, served, List.append_assoc]

theorem served_append (g : Graph σ ω) (run : Run) (before after : List Delivery) :
    g.served run (before ++ after) = (g.served run before).served run after := by
  rw [served, deliverAll_append]

theorem served_cons (g : Graph σ ω) (run : Run) (d : Delivery) (after : List Delivery) :
    g.served run (d :: after) = (g.deliver run d).1.served run after :=
  rfl

theorem shapeOf_served (g : Graph σ ω) (run : Run) (deliveries : List Delivery) :
    (g.served run deliveries).shapeOf = g.shapeOf := by
  induction deliveries generalizing g with
  | nil => rfl
  | cons d rest ih => exact (ih _).trans (g.shapeOf_deliver run d)

/-- A control stores what the last delivery has for it, whatever it stored before. If there is none
it stores what it stored before. -/
theorem storedAt_served {t : Storage} (h : g.shapeOf ref = some (.control t))
    (h' : g'.shapeOf ref = some (.control t)) (run : Run) (deliveries : List Delivery) :
    (g'.served run deliveries).storedAt ref =
      if ∃ d ∈ deliveries, d.Stores run ref t then (g.served run deliveries).storedAt ref
      else g'.storedAt ref := by
  induction deliveries generalizing g g' with
  | nil => simp [served, deliverAll]
  | cons d rest ih =>
    have hshape {g : Graph σ ω} (h : g.shapeOf ref = some (.control t)) :
        (g.deliver run d).1.shapeOf ref = some (.control t) := by
      rw [shapeOf_deliver]
      exact h
    rw [served_cons, served_cons, ih (hshape h) (hshape h')]
    by_cases hrest : ∃ later ∈ rest, later.Stores run ref t
    · rw [if_pos hrest, if_pos (hrest.imp fun _ ↦ .imp_left (List.mem_cons_of_mem d))]
    · rw [if_neg hrest, storedAt_deliver h']
      by_cases hstores : d.Stores run ref t
      · rw [if_pos hstores, if_pos ⟨d, List.mem_cons_self, hstores⟩, ih (hshape h) (hshape h),
          if_neg hrest, storedAt_deliver h, if_pos hstores]
      · rw [if_neg hstores, if_neg (by simpa [hstores] using hrest)]

/-! ## Graphs that differ in one port -/

/-- Whether two graphs are the same but for the port at a place. -/
def SameBut (ref : PortRef) (g g' : Graph σ ω) : Prop :=
  ∀ p, g'.put ref p = g.put ref p

namespace SameBut

protected theorem refl (ref : PortRef) (g : Graph σ ω) : SameBut ref g g :=
  fun _ ↦ rfl

theorem hold (h : SameBut ref g g') (ref' : PortRef) (data : (t : Storage) × t.Carrier) :
    SameBut ref (g.hold ref' data) (g'.hold ref' data) := by
  intro p
  by_cases href : ref' = ref
  · subst href
    rw [put_hold, put_hold, h p]
  · rw [put_hold_of_ne _ _ _ href, put_hold_of_ne _ _ _ href, h p]

theorem deliver (h : SameBut ref g g') (run : Run) (d : Delivery) :
    SameBut ref (g.deliver run d).1 (g'.deliver run d).1 := by
  rw [fst_deliver_eq, fst_deliver_eq]
  cases d.accepted? run with
  | none => exact h
  | some data => exact h.hold d.ref data

theorem served (h : SameBut ref g g') (run : Run) (deliveries : List Delivery) :
    SameBut ref (g.served run deliveries) (g'.served run deliveries) := by
  induction deliveries generalizing g g' with
  | nil => exact h
  | cons d rest ih => exact ih (h.deliver run d)

/-- A delivery changes the port that it is for and nothing else. -/
theorem of_deliver (g : Graph σ ω) (run : Run) (d : Delivery) :
    SameBut d.ref g (g.deliver run d).1 := by
  rw [fst_deliver_eq]
  cases d.accepted? run with
  | none => exact .refl d.ref g
  | some data => exact g.put_hold d.ref data

theorem portAt_eq (h : SameBut ref g g') (hne : ref' ≠ ref) : g'.portAt ref' = g.portAt ref' := by
  have hput := congrArg (portAt · ref') (h (.output (.ofType .word)))
  rwa [portAt_put_of_ne _ _ hne.symm, portAt_put_of_ne _ _ hne.symm] at hput

theorem isSome_slot?_eq (h : SameBut ref g g') (id : NodeId) :
    (g'.slot? id).isSome = (g.slot? id).isSome := by
  have hput := congrArg (fun g : Graph σ ω ↦ (g.slot? id).isSome) (h (.output (.ofType .word)))
  rwa [isSome_slot?_put, isSome_slot?_put] at hput

/-- A delivery that stores nothing in the port is reported in the same way. -/
theorem snd_deliver_eq (h : SameBut ref g g') (hshape : g'.shapeOf = g.shapeOf)
    (hstores : ∀ data, g.Takes run e data → e.ref ≠ ref) :
    (g'.deliver run e).2 = (g.deliver run e).2 := by
  have hslots := h.isSome_slot?_eq e.binding.node
  rw [snd_deliver, snd_deliver]
  split
  · next hnode =>
    cases hslot : g.slot? e.binding.node with
    | none =>
      rw [hslot] at hslots
      rw [Option.not_isSome_iff_eq_none.1 (ne_true_of_eq_false hslots)]
    | some slot =>
      obtain ⟨slot', hslot'⟩ := Option.isSome_iff_exists.1 (hslots.trans (by rw [hslot]; rfl))
      rw [hslot']
      refine congrArg e.reports ?_
      by_cases href : e.ref = ref
      · refine Binding.snd_apply_of_refused ?_ fun hcontrol data haccept ↦ ?_
        · have hport := congrFun hshape e.ref
          simpa [shapeOf, Delivery.ref, hslot, hslot'] using hport
        · refine hstores ⟨_, data⟩ ⟨?_, ?_⟩ href
          · rw [Targets, shapeOf, hslot]
            exact hcontrol
          · exact Delivery.accepted?_eq_some_iff.2 ⟨hnode, data, haccept, rfl⟩
      · refine Binding.snd_apply_congr ?_ e.value
        simpa [portAt, Delivery.ref, hslot, hslot'] using h.portAt_eq href
  · rfl

end SameBut

/-- A rejected delivery among others. -/
structure Contained (g : Graph σ ω) (run : Run) (before : List Delivery) (d : Delivery)
    (after : List Delivery) (fault : Fault) : Prop where
  /-- A value that is not taken changes nothing, and might as well be absent. -/
  refused : (∀ data, ¬ (g.served run before).Takes run d data) →
    (g.served run before).deliver run d = (g.served run before, [d.refusal fault]) ∧
      g.served run (before ++ d :: after) = g.served run (before ++ after)
  /-- A value that is taken is stored and its observer is told, although it gives up. The control
  stores it until another value comes. -/
  disturbed : ∀ data, (g.served run before).Takes run d data →
    (∃ panic, ((g.served run before).reactionAt d.ref data).panic = some panic ∧
        fault = .panicked panic.text) ∧
      ((g.served run before).deliver run d).1 = (g.served run before).hold d.ref data ∧
      ((g.served run before).deliver run d).1.storedAt d.ref = some data ∧
      (g.served run (before ++ d :: after)).storedAt d.ref =
        if ∃ e ∈ after, e.Stores run d.ref data.1 then
          (g.served run (before ++ after)).storedAt d.ref
        else some data
  /-- All but this control is as it is without the delivery, what other controls store and what
  their observers have been told included. -/
  elsewhere : SameBut d.ref (g.served run (before ++ after)) (g.served run (before ++ d :: after))
  others : ∀ ref ≠ d.ref, (g.served run (before ++ d :: after)).portAt ref =
    (g.served run (before ++ after)).portAt ref
  /-- What the other deliveries store they store without it. -/
  stores : ∀ {passed e}, passed ++ [e] <+: after → ∀ data,
    (g.served run (before ++ d :: passed)).Takes run e data ↔
      (g.served run (before ++ passed)).Takes run e data
  /-- The others are reported as they are without it, unless they store into the control of which
  the observer has been told. -/
  reported : ∀ {passed e}, passed ++ [e] <+: after →
    (∀ data, (g.served run before).Takes run d data → ¬ e.Stores run d.ref data.1) →
      ((g.served run (before ++ d :: passed)).deliver run e).2 =
        ((g.served run (before ++ passed)).deliver run e).2
  reports : (deliverAll run (before ++ d :: after) g).2 =
    (deliverAll run before g).2 ++ ((g.served run before).deliver run d).2 ++
      (deliverAll run after (g.served run (before ++ [d]))).2
  reports_without : (deliverAll run (before ++ after) g).2 =
    (deliverAll run before g).2 ++ (deliverAll run after (g.served run before)).2

/-- Two controls of a node under one name. The observer of the first one gives up. -/
def grumbler : List (Operation Demo.Node Empty) :=
  let grumble : Observer .word Empty := .steady fun _ ↦ ⟨[], some ⟨some "too loud"⟩⟩
  [.add [.output .word] .gain,
    .add [.input .word, .control .word 0 (some grumble), .control .word 0 none] .gain,
    .connect (.connect ⟨0⟩ ⟨1⟩), .bind ⟨⟨1⟩, 1⟩ "level" .word none,
    .bind ⟨⟨1⟩, 2⟩ "level" .word none, .post (NameMap.empty.insert "level" (.uint 5)),
    .start .willing]

def grumblerRun : Run :=
  ⟨⟨0⟩, [⟨0⟩, ⟨1⟩], true⟩

/-- What was posted for a control of the grumbler. -/
def grumblerDelivery (port : Nat) : Delivery :=
  ⟨"level", .uint 5, ⟨⟨1⟩, port, .word, none⟩⟩

/-- A control under two names, and an observer that gives up when it is told for the first time. -/
def startled : List (Operation Demo.Node Empty) :=
  let startle : Observer .word Empty := .ofState
    (fun calm _ ↦ (true, ⟨[], if calm then none else some ⟨some "too sudden"⟩⟩)) false
  [.add [.output .word] .gain, .add [.input .word, .control .word 0 (some startle)] .gain,
    .connect (.connect ⟨0⟩ ⟨1⟩), .start .willing]

/-- A value for the control of the startled node. -/
def startledDelivery (name : String) : Delivery :=
  ⟨name, .uint 5, ⟨⟨1⟩, 1, .word, none⟩⟩

end Graph

end SignalFlow
