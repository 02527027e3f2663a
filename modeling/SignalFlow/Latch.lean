/-!
# Latches

A latch counts down to zero and then lets everyone through. A latch is set for a number of
participants; each arrives once and waits for the others. Setting the count anew wakes nobody,
so that those who wait go on waiting until the count comes down to zero.
-/

namespace SignalFlow

/-- A latch with the number of arrivals that are still to come and of those who wait. -/
structure Latch where
  remaining : Nat
  waiting : Nat
deriving DecidableEq, Repr, Inhabited

namespace Latch

/-- A latch that is open and at which nobody waits. -/
def opened : Latch where
  remaining := 0
  waiting := 0

def isOpen (l : Latch) : Bool :=
  l.remaining == 0

/-- Sets the number of arrivals to come. -/
def reset (l : Latch) (count : Nat) : Latch :=
  { l with remaining := count }

/-- Lets everyone through who waits: how many that are, and the latch behind them. -/
def release (l : Latch) : Nat × Latch :=
  (l.waiting, { l with waiting := 0 })

/-- Opens the latch whatever its count. -/
def openUp (l : Latch) : Nat × Latch :=
  release { l with remaining := 0 }

/-- Comes to wait without being counted: whether one goes through at once. -/
def wait (l : Latch) : Nat × Latch :=
  if l.isOpen then (1, l) else (0, { l with waiting := l.waiting + 1 })

/-- Arrives and waits: how many go through because of it, the last to arrive among them. -/
def arrive (l : Latch) : Nat × Latch :=
  let l := { l with remaining := l.remaining - 1 }
  if l.isOpen then (l.waiting + 1, { l with waiting := 0 })
  else (0, { l with waiting := l.waiting + 1 })

end Latch

end SignalFlow
