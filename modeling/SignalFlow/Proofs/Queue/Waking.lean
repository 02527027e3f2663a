import SignalFlow.Queue
import Mathlib.Logic.Function.Basic

/-!
# Waking the observer of a queue

Producers put items into a queue, poppers take items out, and an observer that is told of items
takes out what it finds until it finds nothing. The queue is locked for each of these steps, but not
between them: a producer that found the queue empty tells the observer later, on its own thread, and
meanwhile the others go on. So the observer may be told when there is nothing left, or by two
producers at a time.

A move is one step of one of them, and a list of moves is a way to put the steps of all in a row.
However they are put, no item is forgotten: as long as there is one, a producer has yet to tell the
observer, or the observer is still taking items out.
-/

namespace SignalFlow

namespace Relay

/-- How far a producer has come: it has nothing to do for the queue, or it found the queue empty
when it put an item in and has told nobody yet, or an observer that it told is taking items out
and others wait to be told. -/
inductive Stage (ω : Type) where
  | resting
  | owing
  | draining (observer : ω) (rest : List ω)
deriving DecidableEq, Repr

/-- Tells the first of some observers. -/
def Stage.telling {ω : Type} : List ω → Stage ω
  | [] => .resting
  | observer :: rest => .draining observer rest

/-- A step of a producer or a popper. A producer puts an item in, or it goes on with what it
owes. -/
inductive Move (α : Type) (producers poppers : Nat) where
  | push (producer : Fin producers) (item : α)
  | tryPush (producer : Fin producers) (item : α)
  | proceed (producer : Fin producers)
  | pop (popper : Fin poppers)
deriving DecidableEq, Repr

end Relay

/-- A watched queue with its producers. -/
structure Relay (α ω : Type) (producers : Nat) where
  watched : WatchedQueue α ω
  stages : Fin producers → Relay.Stage ω

namespace Relay

variable {α ω : Type} {producers poppers : Nat} {r : Relay α ω producers}
  {observer : ω}

/-- An empty queue with one observer, and producers that have not put anything in. -/
def fresh (capacity : Nat) (observer : ω) : Relay α ω producers where
  watched := ⟨.ofCapacity capacity, [observer]⟩
  stages _ := .resting

/-- The queue is new but for the observer that was registered. -/
theorem observe_ofCapacity [DecidableEq ω] (capacity : Nat) (observer : ω) :
    (WatchedQueue.ofCapacity capacity : WatchedQueue α ω).observe observer =
      .ok (fresh capacity observer : Relay α ω producers).watched :=
  rfl

def put (r : Relay α ω producers) (producer : Fin producers) (stage : Stage ω) :
    Relay α ω producers :=
  { r with stages := Function.update r.stages producer stage }

/-- The stage behind an item that was put in. -/
def Stage.behind (w : WatchedQueue α ω) : Stage ω :=
  if w.queue.isEmpty then .owing else .resting

/-- What a producer does about what it owes: it looks who observes the queue and tells the first
one, or an observer that it told takes an item out. If there is none, the next observer is told. -/
def proceed (r : Relay α ω producers) (producer : Fin producers) : Relay α ω producers :=
  match r.stages producer with
  | .resting => r
  | .owing => r.put producer (.telling r.watched.observers)
  | .draining _ rest =>
    match r.watched.pop with
    | (some _, watched) => { r with watched }
    | (none, _) => r.put producer (.telling rest)

/-- What a move does. Only a producer that rests can put an item in. -/
def move (r : Relay α ω producers) : Move α producers poppers → Relay α ω producers
  | .push producer item =>
    match r.stages producer with
    | .resting =>
      { r with watched := (r.watched.push item).2.1 }.put producer (.behind r.watched)
    | _ => r
  | .tryPush producer item =>
    match r.stages producer, r.watched.tryPush? item with
    | .resting, some (watched, _) => { r with watched }.put producer (.behind r.watched)
    | _, _ => r
  | .proceed producer => r.proceed producer
  | .pop _ => { r with watched := r.watched.pop.2 }

def after (r : Relay α ω producers) (moves : List (Move α producers poppers)) :
    Relay α ω producers :=
  moves.foldl move r

/-- Whether a producer has yet to tell the observer, or the observer that it told is still taking
items out. -/
def Attends (r : Relay α ω producers) (observer : ω) (producer : Fin producers) : Prop :=
  r.stages producer = .owing ∨ r.stages producer = .draining observer []

/-- The observer is registered alone, and if there are items somebody is about to look. -/
structure Watchful (r : Relay α ω producers) (observer : ω) : Prop where
  observers : r.watched.observers = [observer]
  attended : r.watched.queue.items ≠ [] → ∃ producer, r.Attends observer producer

theorem watchful_fresh (capacity : Nat) (observer : ω) :
    (fresh capacity observer : Relay α ω producers).Watchful observer :=
  ⟨rfl, fun h ↦ absurd rfl h⟩

/-- What one producer does leaves the others as they are. -/
theorem Attends.put {attending producer : Fin producers} (h : r.Attends observer attending)
    (hne : attending ≠ producer) (stage : Stage ω) :
    (r.put producer stage).Attends observer attending := by
  have hstage : (r.put producer stage).stages attending = r.stages attending :=
    Function.update_of_ne hne _ _
  rwa [Attends, hstage]

namespace Watchful

/-- Who puts an item into the empty queue owes it to the observer, and if the queue was not empty
somebody else is about to look. -/
theorem stored (h : r.Watchful observer) {producer : Fin producers}
    (hresting : r.stages producer = .resting) {watched : WatchedQueue α ω}
    (hobservers : watched.observers = r.watched.observers) :
    ({ r with watched }.put producer (.behind r.watched)).Watchful observer := by
  refine ⟨hobservers.trans h.observers, fun _ ↦ ?_⟩
  cases hempty : r.watched.queue.isEmpty with
  | true =>
    refine ⟨producer, .inl ?_⟩
    simp [Relay.put, Stage.behind, hempty]
  | false =>
    have hitems : r.watched.queue.items ≠ [] := by
      simpa [Queue.isEmpty] using hempty
    obtain ⟨attending, hattends⟩ := h.attended hitems
    have hne : attending ≠ producer := by
      rintro rfl
      rcases hattends with howing | hdraining
      · simp [hresting] at howing
      · simp [hresting] at hdraining
    exact ⟨attending, Attends.put (r := { r with watched }) hattends hne _⟩

/-- Whoever takes an item out leaves those alone who are about to look. -/
theorem popped (h : r.Watchful observer) :
    ({ r with watched := r.watched.pop.2 } : Relay α ω producers).Watchful observer := by
  refine ⟨h.observers, fun hitems ↦ h.attended fun hempty ↦ hitems ?_⟩
  change r.watched.queue.items.tail = []
  rw [hempty]
  rfl

theorem proceed (h : r.Watchful observer) (producer : Fin producers) :
    (r.proceed producer).Watchful observer := by
  unfold Relay.proceed
  split
  · exact h
  · refine ⟨h.observers, fun _ ↦ ⟨producer, .inr ?_⟩⟩
    simp [Relay.put, h.observers, Stage.telling]
  · split
    · next heq =>
      have hpopped := h.popped
      rwa [heq] at hpopped
    · next heq =>
      -- the observer has seen the queue empty, so nobody needs to look
      refine ⟨h.observers, fun hitems ↦ absurd ?_ hitems⟩
      have hhead : r.watched.queue.items.head? = none := congrArg Prod.fst heq
      exact List.head?_eq_none_iff.1 hhead

theorem move (h : r.Watchful observer) (m : Move α producers poppers) :
    (r.move m).Watchful observer := by
  cases m with
  | push producer item =>
    simp only [Relay.move]
    split
    · next hresting => exact h.stored hresting rfl
    · exact h
  | tryPush producer item =>
    simp only [Relay.move]
    split
    · next hresting hpushed =>
      obtain ⟨_, -, heq⟩ := Option.map_eq_some_iff.1 hpushed
      exact h.stored hresting (congrArg (·.1.observers) heq).symm
    · exact h
  | proceed producer => exact h.proceed producer
  | pop => exact h.popped

theorem after (h : r.Watchful observer) (moves : List (Move α producers poppers)) :
    (r.after moves).Watchful observer := by
  induction moves generalizing r with
  | nil => exact h
  | cons m rest ih => exact ih (h.move m)

end Watchful

/-- Whatever producers, poppers and the observer have done, if there is an item a producer has
yet to tell the observer, or the observer is still taking items out. -/
theorem attended_after (capacity : Nat) (observer : ω) (moves : List (Move α producers poppers))
    (hitems : ((fresh capacity observer).after moves).watched.queue.items ≠ []) :
    ∃ producer, ((fresh capacity observer).after moves).Attends observer producer :=
  ((watchful_fresh capacity observer).after moves).attended hitems

/-- When all producers rest nothing is left in the queue. -/
theorem items_eq_nil_of_resting (capacity : Nat) (observer : ω)
    (moves : List (Move α producers poppers))
    (hrest : ∀ producer, ((fresh capacity observer).after moves).stages producer = .resting) :
    ((fresh capacity observer).after moves).watched.queue.items = [] := by
  by_contra hitems
  obtain ⟨producer, hattends⟩ :=
    ((watchful_fresh capacity observer).after moves).attended hitems
  rw [Attends, hrest producer] at hattends
  rcases hattends with howing | hdraining
  · cases howing
  · cases hdraining

/-- Two producers meet: the item of the first one is gone before it tells the observer, and the
second one finds the queue empty once more. -/
def meeting : List (Move Nat 2 1) :=
  [.push 0 1, .pop 0, .tryPush 1 2, .proceed 0]

theorem meeting_is_attended :
    ((fresh 2 () : Relay Nat Unit 2).after meeting).watched.queue.items ≠ []
    ∧ ∃ producer, ((fresh 2 () : Relay Nat Unit 2).after meeting).Attends () producer := by
  have hitems : ((fresh 2 () : Relay Nat Unit 2).after meeting).watched.queue.items ≠ [] := by
    decide
  exact ⟨hitems, attended_after 2 () meeting hitems⟩

end Relay

end SignalFlow
