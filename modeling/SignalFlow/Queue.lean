import SignalFlow.Data
import SignalFlow.Text

/-!
# Bounded queues

A queue holds items in the order of their arrival, up to its capacity. A push into a full
queue either puts the oldest item out or is refused. A watched queue tells its observers when
an item arrives in the empty queue, and only then; who is told is settled at that moment.
-/

namespace SignalFlow

/-- Items in the order of their arrival. -/
structure Queue (α : Type) where
  items : List α
  capacity : Nat
deriving DecidableEq, Repr, Inhabited

namespace Queue

variable {α : Type}

/-- An empty queue. It has room for one item at least. -/
def ofCapacity (capacity : Nat) : Queue α where
  items := []
  capacity := max capacity 1

def size (q : Queue α) : Nat :=
  q.items.length

def isEmpty (q : Queue α) : Bool :=
  q.items.isEmpty

def isFull (q : Queue α) : Bool :=
  q.capacity ≤ q.size

def append (q : Queue α) (item : α) : Queue α :=
  { q with items := q.items ++ [item] }

def pop (q : Queue α) : Option α × Queue α :=
  (q.items.head?, { q with items := q.items.tail })

/-- Puts an item in, and the oldest one out if the queue is full. -/
def push (q : Queue α) (item : α) : Option α × Queue α :=
  if q.isFull then (q.pop.1, q.pop.2.append item) else (none, q.append item)

/-- Puts an item in if there is room. -/
def tryPush? (q : Queue α) (item : α) : Option (Queue α) :=
  if q.isFull then none else some (q.append item)

end Queue

/-- What is shown of a queue: the type of its items, how many it holds and how many it can
hold. -/
structure QueueShape where
  type : DataType
  size : Nat
  capacity : Nat
deriving DecidableEq, Repr, Inhabited

namespace QueueShape

/-- The shape of a queue with items of a type. -/
def ofQueue {α : Type} (type : DataType) (q : Queue α) : QueueShape :=
  ⟨type, q.size, q.capacity⟩

def text (shape : QueueShape) : String :=
  "Queue<" ++ shape.type.name ++ "> size=" ++ toString shape.size ++ " capacity=" ++
    toString shape.capacity

def inspect (shape : QueueShape) : String :=
  "Queue \x7b type: " ++ Text.quoted shape.type.name ++ ", len: " ++ toString shape.size ++
    ", capacity: " ++ toString shape.capacity ++ " \x7d"

end QueueShape

/-- A queue for data of one type. -/
structure DataQueue where
  type : DataType
  queue : Queue Datum
deriving Inhabited

def DataQueue.shape (q : DataQueue) : QueueShape :=
  .ofQueue q.type q.queue

/-- Why the observers of a queue are not changed. -/
inductive WatchFault where
  | alreadyObserving
  | notObserving
deriving DecidableEq, Repr

def WatchFault.text : WatchFault → String
  | .alreadyObserving => "observer already registered"
  | .notObserving => "observer not registered"

/-- A queue with observers in the order in which they came. -/
structure WatchedQueue (α ω : Type) where
  queue : Queue α
  observers : List ω
deriving DecidableEq, Repr, Inhabited

namespace WatchedQueue

variable {α ω : Type} [DecidableEq ω]

/-- An empty queue that nobody observes. -/
def ofCapacity (capacity : Nat) : WatchedQueue α ω where
  queue := .ofCapacity capacity
  observers := []

/-- Those who are told of an item that arrives. -/
def told (w : WatchedQueue α ω) : List ω :=
  if w.queue.isEmpty then w.observers else []

def pop (w : WatchedQueue α ω) : Option α × WatchedQueue α ω :=
  (w.queue.pop.1, { w with queue := w.queue.pop.2 })

/-- Puts an item in: the item put out, the queue, and those who are told. -/
def push (w : WatchedQueue α ω) (item : α) : Option α × WatchedQueue α ω × List ω :=
  ((w.queue.push item).1, { w with queue := (w.queue.push item).2 }, w.told)

/-- Puts an item in if there is room: the queue and those who are told. -/
def tryPush? (w : WatchedQueue α ω) (item : α) : Option (WatchedQueue α ω × List ω) :=
  (w.queue.tryPush? item).map fun queue ↦ ({ w with queue }, w.told)

def observe (w : WatchedQueue α ω) (observer : ω) : Except WatchFault (WatchedQueue α ω) :=
  if observer ∈ w.observers then .error .alreadyObserving
  else .ok { w with observers := w.observers ++ [observer] }

def unobserve (w : WatchedQueue α ω) (observer : ω) : Except WatchFault (WatchedQueue α ω) :=
  if observer ∈ w.observers then .ok { w with observers := w.observers.erase observer }
  else .error .notObserving

end WatchedQueue

end SignalFlow
