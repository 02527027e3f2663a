import SignalFlow.Latch
import SignalFlow.Graph.Basic
import Mathlib.Logic.Function.Basic

/-!
# Crews

A graph that runs has a crew: a thread for each of its runs, and the desk, which is the caller
of the library that starts and stops the graph. Threads and desk meet at two gates. The desk sets
both latches to the number of the threads, brings the threads up one by one, and waits at the
first gate; each thread initialises its nodes and arrives there. Behind it the threads go round
their loops until the desk asks them to stop. Then they arrive at the second gate, where the desk
waits for them once more, destroy their nodes and are joined.

A move is one step of one of them: a thread enters a node or comes back from it, looks whether it
is to stop, or does one thing to a latch. Whoever finds a latch closed falls asleep and is woken
when it opens; it then looks at the latch again before it goes on. A list of moves is a way to
put the steps of all in a row, so what holds after every list of moves holds however the threads
run side by side. The log tells what was done so far, the oldest first.
-/

namespace SignalFlow

/-- The two places at which a crew meets. -/
inductive Gate where
  | start
  | stop
deriving DecidableEq, Repr

namespace Crew

/-- How far a thread has come. Calls that are to be made are kept with their phase. -/
inductive Stage where
  | unborn
  | calling (phase : Phase) (rest : List NodeId)
  | inside (phase : Phase) (node : NodeId) (rest : List NodeId)
  | arriving (gate : Gate)
  | waiting (gate : Gate) (asleep : Bool)
  | looping
  | polling
  | finished
deriving DecidableEq, Repr

/-- How far the desk has come: with the threads that it has brought up or joined so far. -/
inductive Desk where
  | spawning (born : Nat)
  | waiting (gate : Gate) (asleep : Bool)
  | running
  | joining (joined : Nat)
  | stopped
deriving DecidableEq, Repr

/-- What can be seen of a crew. A call is seen when it begins and when it is over. -/
inductive Entry (threads : Nat) where
  | enter (thread : Fin threads) (phase : Phase) (node : NodeId)
  | exit (thread : Fin threads) (phase : Phase) (node : NodeId)
  | left (thread : Fin threads)
  | started
  | stopped
deriving DecidableEq, Repr

/-- A move of a thread, which may find data for a cycle or not, or of the desk. -/
inductive Move (threads : Nat) where
  | thread (thread : Fin threads) (fed : Bool)
  | desk
deriving DecidableEq, Repr

/-- Where a thread goes when it has called all nodes of the order in a phase. -/
def Stage.behind (order : List NodeId) : Phase → Stage
  | .init => .arriving .start
  | .reset => .calling .process order
  | .process => .looping
  | .destroy => .finished

/-- Where a thread goes when it comes through a gate. -/
def Stage.through (order : List NodeId) : Gate → Stage
  | .start => .looping
  | .stop => .calling .destroy order

/-- Where the desk goes when it comes through a gate. -/
def Desk.through : Gate → Desk
  | .start => .running
  | .stop => .joining 0

/-- What is seen when the desk comes through a gate: behind the first one the graph is started. -/
def Desk.seen {threads : Nat} : Gate → List (Entry threads)
  | .start => [.started]
  | .stop => []

/-- What a thread does between the gates: its next stage and what is seen of it. It looks whether
it is to stop before each round, and does without a cycle if it finds no data. -/
def Stage.next {threads : Nat} (order : List NodeId) (thread : Fin threads)
    (stopping fed : Bool) : Stage → Stage × List (Entry threads)
  | .calling phase [] => (behind order phase, [])
  | .calling phase (node :: rest) => (.inside phase node rest, [.enter thread phase node])
  | .inside phase node rest => (.calling phase rest, [.exit thread phase node])
  | .looping => if stopping then (.arriving .stop, [.left thread]) else (.polling, [])
  | .polling => (if fed then .calling .reset order else .looping, [])
  | stage => (stage, [])

/-- Wakes whoever sleeps at a gate. -/
def Stage.wake (gate : Gate) (stage : Stage) : Stage :=
  if stage = .waiting gate true then .waiting gate false else stage

/-- Wakes the desk if it sleeps at a gate. -/
def Desk.wake (gate : Gate) (desk : Desk) : Desk :=
  if desk = .waiting gate true then .waiting gate false else desk

end Crew

/-- The threads of a list of runs with their desk. -/
structure Crew (runs : List Run) where
  latch : Gate → Latch
  stopping : Bool
  threads : Fin runs.length → Crew.Stage
  desk : Crew.Desk
  log : List (Crew.Entry runs.length)

namespace Crew

variable {runs : List Run}

/-- A crew that has done nothing but set its latches. -/
def fresh (runs : List Run) : Crew runs where
  latch _ := Latch.opened.reset runs.length
  stopping := false
  threads _ := .unborn
  desk := .spawning 0
  log := []

/-- A thread comes to a stage, and something is seen of it. -/
def put (c : Crew runs) (i : Fin runs.length) (stage : Stage)
    (seen : List (Entry runs.length)) : Crew runs :=
  { c with threads := Function.update c.threads i stage, log := c.log ++ seen }

/-- The desk comes to a stage, and something is seen of it. -/
def seat (c : Crew runs) (desk : Desk) (seen : List (Entry runs.length)) : Crew runs :=
  { c with desk, log := c.log ++ seen }

def setLatch (c : Crew runs) (gate : Gate) (latch : Latch) : Crew runs :=
  { c with latch := Function.update c.latch gate latch }

def wake (c : Crew runs) (gate : Gate) : Crew runs :=
  { c with threads := fun j ↦ (c.threads j).wake gate, desk := c.desk.wake gate }

/-- A thread arrives at a gate. It sleeps unless it is the last; the last wakes the others. -/
def arrive (c : Crew runs) (i : Fin runs.length) (gate : Gate) : Crew runs :=
  let (passing, latch) := (c.latch gate).arrive
  let c := c.setLatch gate latch
  if passing = 0 then c.put i (.waiting gate true) []
  else (c.wake gate).put i (.through (runs.get i).order gate) []

/-- A thread that is awake looks at the latch once more. -/
def recheck (c : Crew runs) (i : Fin runs.length) (gate : Gate) : Crew runs :=
  let (passing, latch) := (c.latch gate).wait
  let c := c.setLatch gate latch
  c.put i (if passing = 0 then .waiting gate true else .through (runs.get i).order gate) []

/-- The step of a thread. -/
def work (c : Crew runs) (i : Fin runs.length) (fed : Bool) : Crew runs :=
  match c.threads i with
  | .arriving gate => c.arrive i gate
  | .waiting gate false => c.recheck i gate
  | stage =>
    let (stage, seen) := stage.next (runs.get i).order i c.stopping fed
    c.put i stage seen

/-- The desk looks at the latch of a gate at which it waits. -/
def await (c : Crew runs) (gate : Gate) : Crew runs :=
  let (passing, latch) := (c.latch gate).wait
  let c := c.setLatch gate latch
  if passing = 0 then c.seat (.waiting gate true) [] else c.seat (.through gate) (Desk.seen gate)

/-- The step of the desk. It brings up threads, asks them to stop, and joins those that have
finished, in their order. -/
def direct (c : Crew runs) : Crew runs :=
  match c.desk with
  | .spawning born =>
    if h : born < runs.length then
      (c.put ⟨born, h⟩ (.calling .init (runs.get ⟨born, h⟩).order) []).seat
        (.spawning (born + 1)) []
    else c.seat (.waiting .start false) []
  | .waiting gate false => c.await gate
  | .running => { c.seat (.waiting .stop false) [] with stopping := true }
  | .joining joined =>
    if h : joined < runs.length then
      if c.threads ⟨joined, h⟩ = .finished then c.seat (.joining (joined + 1)) [] else c
    else c.seat .stopped [.stopped]
  | .waiting _ true | .stopped => c

def move (c : Crew runs) : Move runs.length → Crew runs
  | .thread i fed => c.work i fed
  | .desk => c.direct

def after (c : Crew runs) (moves : List (Move runs.length)) : Crew runs :=
  moves.foldl move c

section Projections

variable (c : Crew runs) (i : Fin runs.length) (s : Stage) (d : Desk) (gate : Gate) (l : Latch)
  (seen : List (Entry runs.length))

@[simp] theorem latch_put : (c.put i s seen).latch = c.latch := rfl
@[simp] theorem threads_put : (c.put i s seen).threads = Function.update c.threads i s := rfl
@[simp] theorem desk_put : (c.put i s seen).desk = c.desk := rfl
@[simp] theorem log_put : (c.put i s seen).log = c.log ++ seen := rfl

@[simp] theorem latch_seat : (c.seat d seen).latch = c.latch := rfl
@[simp] theorem threads_seat : (c.seat d seen).threads = c.threads := rfl
@[simp] theorem desk_seat : (c.seat d seen).desk = d := rfl
@[simp] theorem log_seat : (c.seat d seen).log = c.log ++ seen := rfl

@[simp] theorem latch_setLatch : (c.setLatch gate l).latch = Function.update c.latch gate l := rfl
@[simp] theorem threads_setLatch : (c.setLatch gate l).threads = c.threads := rfl
@[simp] theorem desk_setLatch : (c.setLatch gate l).desk = c.desk := rfl
@[simp] theorem log_setLatch : (c.setLatch gate l).log = c.log := rfl

@[simp] theorem latch_wake : (c.wake gate).latch = c.latch := rfl
@[simp] theorem threads_wake (j) : (c.wake gate).threads j = (c.threads j).wake gate := rfl
@[simp] theorem desk_wake : (c.wake gate).desk = c.desk.wake gate := rfl
@[simp] theorem log_wake : (c.wake gate).log = c.log := rfl

end Projections

@[simp] theorem after_nil (c : Crew runs) : c.after [] = c := rfl

@[simp] theorem after_cons (c : Crew runs) (m : Move runs.length) (moves) :
    c.after (m :: moves) = (c.move m).after moves := rfl

theorem after_concat (c : Crew runs) (moves) (m : Move runs.length) :
    c.after (moves ++ [m]) = (c.after moves).move m := by
  simp [after]

end Crew

end SignalFlow
