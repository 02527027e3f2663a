import SignalFlow.Proofs.Crew.Basic
import Mathlib.Data.Fintype.Card
import Mathlib.Algebra.BigOperators.Fin

/-!
# Counting at the gates

Stages are ranked by their height, which grows as a thread goes on. The count of a latch is the
number of the threads that stand below its gate, and the number of those who wait is the number
of those who sleep there. So a latch that is open has every thread at its gate or above, whoever
is behind a gate finds its latch open, and nobody sleeps at a latch that is open: the last thread
to arrive wakes all that do.
-/

namespace SignalFlow

open Finset

/-- The height of a gate, at which a thread stands that waits there. -/
def Gate.height : Gate → ℕ
  | .start => 3
  | .stop => 6

namespace Crew

def phaseHeight : Phase → ℕ
  | .init => 1
  | .reset | .process => 4
  | .destroy => 7

/-- The height of a stage, which grows as a thread goes on. -/
def Stage.height : Stage → ℕ
  | .unborn => 0
  | .calling phase _ | .inside phase _ _ => phaseHeight phase
  | .arriving gate => gate.height - 1
  | .waiting gate _ => gate.height
  | .looping | .polling => 4
  | .finished => 8

/-- A thread has arrived at a gate when it waits there or is behind it. -/
def Stage.HasArrived (gate : Gate) (stage : Stage) : Prop :=
  gate.height ≤ stage.height

@[simp] theorem Stage.height_wake (gate : Gate) (s : Stage) : (s.wake gate).height = s.height := by
  unfold Stage.wake
  split
  case isTrue h => rw [h]; rfl
  case isFalse => rfl

/-- Two stages between which a thread comes to no gate and through none. -/
structure Stage.Level (s s' : Stage) : Prop where
  below : ∀ gate : Gate, s'.height < gate.height ↔ s.height < gate.height
  asleep : ∀ gate, s' = .waiting gate true ↔ s = .waiting gate true
  passed : ∀ gate : Gate, gate.height < s'.height ∨ s' = .waiting gate false →
    gate.height < s.height ∨ s = .waiting gate false

section Steps

variable {threads : ℕ} (order : List NodeId) (i : Fin threads)

theorem Stage.level_next (stopping fed : Bool) (s : Stage) :
    s.Level (s.next order i stopping fed).1 := by
  cases s with
  | calling phase rest =>
    cases rest with
    | nil =>
      cases phase <;> constructor <;> intro gate <;> cases gate <;>
        simp [next, behind, height, phaseHeight, Gate.height]
    | cons node rest => constructor <;> intro gate <;> simp [next, height]
  | inside phase node rest => constructor <;> intro gate <;> simp [next, height]
  | looping =>
    cases stopping <;> constructor <;> intro gate <;> cases gate <;>
      simp [next, height, Gate.height]
  | polling =>
    cases fed <;> constructor <;> intro gate <;> cases gate <;>
      simp [next, height, Gate.height, phaseHeight]
  | _ => exact ⟨fun _ ↦ Iff.rfl, fun _ ↦ Iff.rfl, fun _ h ↦ h⟩

theorem Stage.level_through (gate : Gate) :
    (Stage.waiting gate false).Level (.through order gate) := by
  cases gate <;> constructor <;> intro gate <;> cases gate <;>
    simp [through, height, phaseHeight, Gate.height]

end Steps

variable {runs : List Run} {c : Crew runs} {i : Fin runs.length}

/-- The number of threads below a gate. -/
def below (c : Crew runs) (gate : Gate) : ℕ :=
  #{i | (c.threads i).height < gate.height}

/-- The number of threads that sleep at a gate. -/
def sleepers (c : Crew runs) (gate : Gate) : ℕ :=
  #{i | c.threads i = .waiting gate true}

/-- Whether the desk sleeps at a gate, as a number. -/
def Desk.sleepers (gate : Gate) (d : Desk) : ℕ :=
  if d = .waiting gate true then 1 else 0

/-- A count of threads changes by what the one does that comes to another stage. -/
theorem card_update (f : Fin runs.length → Stage) (i : Fin runs.length) (s : Stage)
    (p : Stage → Prop) [DecidablePred p] :
    #{j | p (Function.update f i s j)} + (if p (f i) then 1 else 0) =
      #{j | p (f j)} + (if p s then 1 else 0) := by
  have split (g : Fin runs.length → Stage) :
      #{j | p (g j)} = (if p (g i) then 1 else 0) + ∑ j ∈ {i}ᶜ, if p (g j) then 1 else 0 := by
    rw [card_filter, Fintype.sum_eq_add_sum_compl i]
  have others : ∑ j ∈ {i}ᶜ, (if p (Function.update f i s j) then 1 else 0) =
      ∑ j ∈ {i}ᶜ, if p (f j) then 1 else 0 := by
    refine sum_congr rfl fun j hj ↦ ?_
    have hj : j ≠ i := by simpa using hj
    rw [Function.update_of_ne hj]
  rw [split (Function.update f i s), split f, others, Function.update_self]
  omega

theorem below_put (c : Crew runs) (i) (s : Stage) (seen) (gate : Gate) :
    (c.put i s seen).below gate + (if (c.threads i).height < gate.height then 1 else 0) =
      c.below gate + (if s.height < gate.height then 1 else 0) :=
  card_update c.threads i s fun s ↦ s.height < gate.height

theorem sleepers_put (c : Crew runs) (i) (s : Stage) (seen) (gate : Gate) :
    (c.put i s seen).sleepers gate + (if c.threads i = .waiting gate true then 1 else 0) =
      c.sleepers gate + (if s = .waiting gate true then 1 else 0) :=
  card_update c.threads i s (· = .waiting gate true)

theorem below_put_of_iff {s : Stage} {gate : Gate} (seen)
    (h : s.height < gate.height ↔ (c.threads i).height < gate.height) :
    (c.put i s seen).below gate = c.below gate := by
  have moved := below_put c i s seen gate
  by_cases hs : s.height < gate.height
  · rw [if_pos hs, if_pos (h.mp hs)] at moved
    omega
  · rw [if_neg hs, if_neg (mt h.mpr hs)] at moved
    omega

theorem below_put_of_rise {s : Stage} {g : Gate} (seen)
    (hi : (c.threads i).height < g.height) (hs : ¬ s.height < g.height) :
    (c.put i s seen).below g + 1 = c.below g := by
  have moved := below_put c i s seen g
  rwa [if_pos hi, if_neg hs] at moved

theorem sleepers_put_of_iff {s : Stage} {gate : Gate} (seen)
    (h : s = .waiting gate true ↔ c.threads i = .waiting gate true) :
    (c.put i s seen).sleepers gate = c.sleepers gate := by
  have moved := sleepers_put c i s seen gate
  by_cases hs : s = .waiting gate true
  · rw [if_pos hs, if_pos (h.mp hs)] at moved
    omega
  · rw [if_neg hs, if_neg (mt h.mpr hs)] at moved
    omega

theorem sleepers_put_asleep {gate : Gate} (seen) (hi : c.threads i ≠ .waiting gate true) :
    (c.put i (.waiting gate true) seen).sleepers gate = c.sleepers gate + 1 := by
  have moved := sleepers_put c i (.waiting gate true) seen gate
  rwa [if_neg hi, if_pos rfl] at moved

@[simp] theorem below_wake (c : Crew runs) (g gate : Gate) :
    (c.wake g).below gate = c.below gate := by
  simp [below]

@[simp] theorem below_setLatch (c : Crew runs) (g gate : Gate) (l : Latch) :
    (c.setLatch g l).below gate = c.below gate := rfl

@[simp] theorem sleepers_setLatch (c : Crew runs) (g gate : Gate) (l : Latch) :
    (c.setLatch g l).sleepers gate = c.sleepers gate := rfl

@[simp] theorem below_seat (c : Crew runs) (d : Desk) (seen) (gate : Gate) :
    (c.seat d seen).below gate = c.below gate := rfl

@[simp] theorem sleepers_seat (c : Crew runs) (d : Desk) (seen) (gate : Gate) :
    (c.seat d seen).sleepers gate = c.sleepers gate := rfl

theorem Stage.wake_ne (gate : Gate) (s : Stage) : s.wake gate ≠ .waiting gate true := by
  unfold wake
  split
  case isTrue => simp
  case isFalse h => exact h

theorem Stage.wake_eq_iff {g gate : Gate} (hne : gate ≠ g) (s : Stage) (asleep : Bool) :
    s.wake g = .waiting gate asleep ↔ s = .waiting gate asleep := by
  unfold wake
  split
  case isTrue h => simp [h, hne.symm]
  case isFalse => rfl

theorem sleepers_wake_self (c : Crew runs) (gate : Gate) : (c.wake gate).sleepers gate = 0 := by
  simp [sleepers, Stage.wake_ne]

theorem sleepers_wake_of_ne (c : Crew runs) {g gate : Gate} (hne : gate ≠ g) :
    (c.wake g).sleepers gate = c.sleepers gate := by
  simp [sleepers, Stage.wake_eq_iff hne]

theorem Desk.sleepers_wake_self (gate : Gate) (d : Desk) : (d.wake gate).sleepers gate = 0 := by
  unfold wake sleepers
  split <;> simp_all

theorem Desk.sleepers_wake_of_ne {g gate : Gate} (hne : gate ≠ g) (d : Desk) :
    (d.wake g).sleepers gate = d.sleepers gate := by
  unfold wake sleepers
  split
  case isTrue h => simp [h, hne.symm]
  case isFalse => rfl

/-- The latches count the threads below their gates and those who sleep there. Who is above a
gate, or was woken at it, has found it open, and nobody sleeps at a gate that is open. -/
structure Counted (c : Crew runs) : Prop where
  remaining : ∀ gate, (c.latch gate).remaining = c.below gate
  waiting : ∀ gate, (c.latch gate).waiting =
    c.sleepers gate + c.desk.sleepers gate
  passed : ∀ gate i, gate.height < (c.threads i).height ∨ c.threads i = .waiting gate false →
    (c.latch gate).remaining = 0
  empty : ∀ gate, (c.latch gate).remaining = 0 → (c.latch gate).waiting = 0

theorem Counted.arrived_of_open (h : Counted c) {gate : Gate}
    (hopen : (c.latch gate).remaining = 0) (j : Fin runs.length) :
    (c.threads j).HasArrived gate := by
  have none : c.below gate = 0 := h.remaining gate ▸ hopen
  rw [below, card_eq_zero, filter_eq_empty_iff] at none
  exact Nat.le_of_not_lt (none (mem_univ j))

theorem Counted.open_of_arrived (h : Counted c) {gate : Gate}
    (arrived : ∀ j, (c.threads j).HasArrived gate) : (c.latch gate).remaining = 0 := by
  rw [h.remaining, below, card_eq_zero, filter_eq_empty_iff]
  exact fun j _ ↦ Nat.not_lt_of_le (arrived j)

/-- Nobody sleeps at a gate at which all have arrived. -/
theorem Counted.awake (h : Counted c) {gate : Gate} (hopen : (c.latch gate).remaining = 0) :
    (∀ j, c.threads j ≠ .waiting gate true) ∧ c.desk ≠ .waiting gate true := by
  have empty := h.waiting gate ▸ h.empty gate hopen
  obtain ⟨threads, desk⟩ := Nat.add_eq_zero_iff.mp empty
  rw [sleepers, card_eq_zero, filter_eq_empty_iff] at threads
  exact ⟨fun j ↦ threads (mem_univ j), by simpa [Desk.sleepers] using desk⟩

theorem Counted.put (h : Counted c) {s : Stage} (level : (c.threads i).Level s) (seen) :
    Counted (c.put i s seen) := by
  constructor
  case remaining =>
    intro gate
    rw [below_put_of_iff seen (level.below gate)]
    exact h.remaining gate
  case waiting =>
    intro gate
    rw [sleepers_put_of_iff seen (level.asleep gate)]
    exact h.waiting gate
  case passed =>
    intro gate j hj
    by_cases hji : j = i
    · subst hji
      exact h.passed gate j (level.passed gate (by simpa using hj))
    · exact h.passed gate j (by simpa [hji] using hj)
  case empty => exact h.empty

theorem arrive_of_last {gate : Gate} (h : (c.latch gate).remaining ≤ 1) :
    c.arrive i gate =
      ((c.setLatch gate ⟨0, 0⟩).wake gate).put i (.through (runs.get i).order gate) [] := by
  have : (c.latch gate).remaining - 1 = 0 := by omega
  simp [arrive, Latch.arrive, Latch.isOpen, this]

theorem arrive_of_early {gate : Gate} (h : 1 < (c.latch gate).remaining) :
    c.arrive i gate =
      (c.setLatch gate ⟨(c.latch gate).remaining - 1, (c.latch gate).waiting + 1⟩).put i
        (.waiting gate true) [] := by
  have : (c.latch gate).remaining - 1 ≠ 0 := by omega
  simp [arrive, Latch.arrive, Latch.isOpen, this]

/-! What arriving does to the height of a thread, as seen from a gate `g`. -/

section Heights

variable (order : List NodeId) (gate g : Gate)

theorem Stage.arriving_below_iff :
    (arriving gate).height < g.height ↔ gate.height ≤ g.height := by
  cases gate <;> cases g <;> decide

theorem Stage.arriving_above_iff :
    g.height < (arriving gate).height ↔ g.height < gate.height := by
  cases gate <;> cases g <;> decide

theorem Stage.through_below_iff :
    (through order gate).height < g.height ↔ gate.height < g.height := by
  cases gate <;> cases g <;> simp [through, height, phaseHeight, Gate.height]

theorem Stage.through_above_iff :
    g.height < (through order gate).height ↔ g.height ≤ gate.height := by
  cases gate <;> cases g <;> simp [through, height, phaseHeight, Gate.height]

theorem Stage.height_waiting (asleep : Bool) : (waiting gate asleep).height = gate.height := rfl

theorem Stage.through_ne_waiting (asleep : Bool) : through order gate ≠ .waiting g asleep := by
  cases gate <;> simp [through]

variable {gate g}

theorem Gate.height_le_iff_lt (hne : g ≠ gate) :
    gate.height ≤ g.height ↔ gate.height < g.height := by
  cases gate <;> cases g <;> simp_all [Gate.height]

end Heights

/-- A thread that is not the last to arrive falls asleep. -/
theorem Counted.arrive_early (h : Counted c) {gate : Gate} (hi : c.threads i = .arriving gate)
    (early : 1 < (c.latch gate).remaining) : Counted (c.arrive i gate) := by
  rw [arrive_of_early early]
  generalize hl : Latch.mk ((c.latch gate).remaining - 1) ((c.latch gate).waiting + 1) = l
  have fewer : l.remaining = (c.latch gate).remaining - 1 := by rw [← hl]
  have more : l.waiting = (c.latch gate).waiting + 1 := by rw [← hl]
  constructor
  case remaining =>
    intro g
    have before := h.remaining g
    by_cases hg : g = gate
    · subst hg
      have rise := below_put_of_rise (c := c.setLatch g l) (i := i) (s := .waiting g true)
        (g := g) [] (by simp [hi, Stage.arriving_below_iff]) (by simp [Stage.height_waiting])
      rw [below_setLatch] at rise
      rw [latch_put, latch_setLatch, Function.update_self, fewer]
      omega
    · rw [below_put_of_iff [] (by
        simp [hi, Stage.arriving_below_iff, Stage.height_waiting, Gate.height_le_iff_lt hg])]
      simpa [hg] using before
  case waiting =>
    intro g
    have before := h.waiting g
    by_cases hg : g = gate
    · subst hg
      rw [sleepers_put_asleep [] (by simp [hi]), latch_put, latch_setLatch, Function.update_self,
        more, sleepers_setLatch, desk_put, desk_setLatch]
      omega
    · rw [sleepers_put_of_iff [] (by simp [hi, Ne.symm hg])]
      simpa [hg] using before
  case passed =>
    intro g j hj
    have closed (hg : g = gate) : ¬ (c.latch g).remaining = 0 := by
      subst hg
      omega
    have before : (c.latch g).remaining = 0 := by
      by_cases hji : j = i
      · subst hji
        have : g.height < gate.height := by simpa [Stage.height] using hj
        exact h.passed g j (.inl (by rw [hi]; exact (Stage.arriving_above_iff gate g).mpr this))
      · exact h.passed g j (by simpa [hji] using hj)
    have hg : g ≠ gate := fun hg ↦ closed hg before
    simpa [hg] using before
  case empty =>
    intro g hg
    by_cases hgg : g = gate
    · subst hgg
      have : (c.latch g).remaining - 1 = 0 := by simpa [fewer] using hg
      omega
    · simpa [hgg] using h.empty g (by simpa [hgg] using hg)

/-- The last thread to arrive opens the gate and wakes all that sleep there. -/
theorem Counted.arrive_last (h : Counted c) {gate : Gate} (hi : c.threads i = .arriving gate)
    (last : (c.latch gate).remaining ≤ 1) : Counted (c.arrive i gate) := by
  rw [arrive_of_last last]
  have hwake : (c.threads i).wake gate = .arriving gate := by simp [hi, Stage.wake]
  constructor
  case remaining =>
    intro g
    have before := h.remaining g
    by_cases hg : g = gate
    · subst hg
      have rise := below_put_of_rise (c := (c.setLatch g ⟨0, 0⟩).wake g) (i := i)
        (s := .through (runs.get i).order g) (g := g) [] (by simp [hi, Stage.arriving_below_iff])
        (by simp [Stage.through_below_iff])
      rw [below_wake, below_setLatch] at rise
      rw [latch_put, latch_wake, latch_setLatch, Function.update_self]
      show 0 = _
      omega
    · rw [below_put_of_iff [] (by
        simp [hi, Stage.arriving_below_iff, Stage.through_below_iff, Gate.height_le_iff_lt hg])]
      simpa [hg] using before
  case waiting =>
    intro g
    have before := h.waiting g
    rw [sleepers_put_of_iff [] (by simp [hwake, Stage.through_ne_waiting]), desk_put, desk_wake]
    by_cases hg : g = gate
    · subst hg
      rw [sleepers_wake_self, Desk.sleepers_wake_self]
      simp
    · rw [sleepers_wake_of_ne _ hg, Desk.sleepers_wake_of_ne hg]
      simpa [hg] using before
  case passed =>
    intro g j hj
    by_cases hg : g = gate
    · simp [hg]
    · suffices (c.latch g).remaining = 0 by simpa [hg] using this
      by_cases hji : j = i
      · subst hji
        have : g.height < gate.height := by
          rw [← Gate.height_le_iff_lt (Ne.symm hg), ← Stage.through_above_iff (runs.get j).order]
          simpa [Stage.through_ne_waiting] using hj
        exact h.passed g j (.inl (by rw [hi]; exact (Stage.arriving_above_iff gate g).mpr this))
      · exact h.passed g j (by simpa [hji, Stage.wake_eq_iff hg] using hj)
  case empty =>
    intro g hg
    by_cases hgg : g = gate
    · simp [hgg]
    · simpa [hgg] using h.empty g (by simpa [hgg] using hg)

theorem Counted.recheck_eq (h : Counted c) {gate : Gate}
    (hi : c.threads i = .waiting gate false) :
    c.recheck i gate = c.put i (.through (runs.get i).order gate) [] := by
  have isOpen := h.passed gate i (.inr hi)
  simp [recheck, Latch.wait, Latch.isOpen, isOpen, setLatch]

theorem await_of_open {gate : Gate} (h : (c.latch gate).remaining = 0) :
    c.await gate = c.seat (.through gate) (Desk.seen gate) := by
  simp [await, Latch.wait, Latch.isOpen, h, setLatch]

theorem await_of_closed {gate : Gate} (h : (c.latch gate).remaining ≠ 0) :
    c.await gate =
      (c.setLatch gate { c.latch gate with waiting := (c.latch gate).waiting + 1 }).seat
        (.waiting gate true) [] := by
  simp [await, Latch.wait, Latch.isOpen, h]

/-- The desk may do what it likes as long as it neither falls asleep nor slept before. -/
theorem Counted.seat (h : Counted c) {d : Desk} (awake : ∀ gate, c.desk.sleepers gate = 0)
    (awake' : ∀ gate, d.sleepers gate = 0) (seen) : Counted (c.seat d seen) where
  remaining := h.remaining
  waiting gate := by simpa [awake, awake'] using h.waiting gate
  passed := h.passed
  empty := h.empty

theorem Counted.await (h : Counted c) {gate : Gate} (hd : c.desk = .waiting gate false) :
    Counted (c.await gate) := by
  have awake (g : Gate) : c.desk.sleepers g = 0 := by simp [hd, Desk.sleepers]
  by_cases isOpen : (c.latch gate).remaining = 0
  · rw [await_of_open isOpen]
    refine h.seat awake (fun g ↦ ?_) _
    cases gate <;> simp [Desk.through, Desk.sleepers]
  · rw [await_of_closed isOpen]
    constructor
    case remaining =>
      intro g
      by_cases hg : g = gate
      · subst hg
        simpa using h.remaining g
      · simpa [hg] using h.remaining g
    case waiting =>
      intro g
      have before := awake g ▸ h.waiting g
      by_cases hg : g = gate
      · subst hg
        simpa [Desk.sleepers] using before
      · simpa [hg, Ne.symm hg, Desk.sleepers] using before
    case passed =>
      intro g j hj
      have before := h.passed g j hj
      have hg : g ≠ gate := fun hg ↦ isOpen (hg ▸ before)
      simpa [hg] using before
    case empty =>
      intro g hg
      by_cases hgg : g = gate
      · subst hgg
        exact absurd (by simpa using hg) isOpen
      · simpa [hgg] using h.empty g (by simpa [hgg] using hg)

end Crew

end SignalFlow
