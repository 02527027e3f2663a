import SignalFlow.Proofs.Crew.Counting
import Mathlib.Tactic.Common

/-!
# Barriers

The two gates keep the phases of all threads of a crew apart, however many threads there are and
however their steps are mixed with those of the desk. When one thread is in its loop, the first
latch is open, so that all threads have arrived at it and have initialised their nodes before;
when one destroys its nodes, all have left their loops. The desk comes through the first gate
when the nodes are initialised, and it is done when it has joined all threads, which have
destroyed theirs. And when all threads have arrived at a gate, everyone who waits there goes
through with the next step.
-/

namespace SignalFlow

open Finset

namespace Crew

/-- The nodes whose call in a phase is not over when a thread is at a stage. -/
def Stage.due (order : List NodeId) (phase : Phase) : Stage → List NodeId
  | .calling p rest =>
    if p = phase then rest else if phaseHeight p < phaseHeight phase then order else []
  | .inside p node rest =>
    if p = phase then node :: rest else if phaseHeight p < phaseHeight phase then order else []
  | stage => if stage.height < phaseHeight phase then order else []

@[simp] theorem Stage.due_wake (gate : Gate) (s : Stage) (order : List NodeId) (phase : Phase) :
    (s.wake gate).due order phase = s.due order phase := by
  unfold Stage.wake
  split
  case isTrue h => rw [h]; rfl
  case isFalse => rfl

theorem Stage.due_init_of_lt {order : List NodeId} {s : Stage} (h : 1 < s.height) :
    s.due order .init = [] := by
  cases s with
  | calling phase rest => cases phase <;> simp_all [height, due, phaseHeight]
  | inside phase node rest => cases phase <;> simp_all [height, due, phaseHeight]
  | _ => simp_all [height, due, phaseHeight]; try omega

/-- What a thread owes between two stages: a call that is no longer due is seen to be over, its
loop is seen to be left when it comes behind it, and it does not move when it has finished. -/
structure Stage.Accounted {threads : ℕ} (order : List NodeId) (i : Fin threads) (s s' : Stage)
    (seen : List (Entry threads)) : Prop where
  called : ∀ phase, phase = .init ∨ phase = .destroy → ∀ node ∈ s.due order phase,
    node ∈ s'.due order phase ∨ .exit i phase node ∈ seen
  left : 5 ≤ s'.height ↔ 5 ≤ s.height ∨ .left i ∈ seen
  alone : ∀ j, .left j ∈ seen → j = i
  finished : s = .finished → s' = .finished

section Steps

variable {threads : ℕ} (order : List NodeId) (i : Fin threads)

theorem Stage.accounted_next (stopping fed : Bool) (s : Stage) :
    s.Accounted order i (s.next order i stopping fed).1 (s.next order i stopping fed).2 := by
  cases s with
  | calling phase rest =>
    cases rest with
    | nil =>
      cases phase <;> constructor <;>
        simp [next, behind, due, height, phaseHeight, Gate.height]
    | cons node rest =>
      constructor
      case called => intro p hp m hm; exact .inl hm
      case left => simp [next, height]
      case alone => simp [next]
      case finished => simp
  | inside phase node rest =>
    constructor
    case called =>
      intro p hp m hm
      by_cases h : phase = p
      · subst h
        have hm : m = node ∨ m ∈ rest := by simpa [due] using hm
        rcases hm with rfl | hm
        · exact .inr (by simp [next])
        · exact .inl (by simpa [next, due] using hm)
      · exact .inl (by simpa [next, due, h] using hm)
    case left => simp [next, height]
    case alone => simp [next]
    case finished => simp
  | looping =>
    cases stopping <;> constructor <;>
      simp +contextual [next, due, height, phaseHeight, Gate.height]
  | polling =>
    cases fed <;> constructor <;>
      simp +contextual [next, due, height, phaseHeight]
  | _ => exact ⟨fun _ _ _ h ↦ .inl h, by simp [next], by simp [next], fun h ↦ h⟩

theorem Stage.length_seen_next_le (stopping fed : Bool) (s : Stage) :
    (s.next order i stopping fed).2.length ≤ 1 := by
  cases s with
  | calling phase rest => cases rest <;> simp [next]
  | looping => cases stopping <;> simp [next]
  | _ => simp [next]

theorem Stage.accounted_asleep (gate : Gate) :
    (Stage.arriving gate).Accounted order i (.waiting gate true) [] := by
  cases gate <;> constructor <;> simp +contextual [due, height, phaseHeight, Gate.height]

theorem Stage.accounted_through {s : Stage} {gate : Gate}
    (hs : s = .arriving gate ∨ s = .waiting gate false) :
    s.Accounted order i (.through order gate) [] := by
  rcases hs with rfl | rfl <;> cases gate <;> constructor <;>
    simp +contextual [through, due, height, phaseHeight, Gate.height]

end Steps

variable {runs : List Run} {c : Crew runs} {i : Fin runs.length}

/-- The calls of all nodes of all threads in a phase are over. -/
def AllCalled (runs : List Run) (phase : Phase) (log : List (Entry runs.length)) : Prop :=
  ∀ j : Fin runs.length, ∀ node ∈ (runs.get j).order, .exit j phase node ∈ log

/-- What has to stand in the log before an entry. -/
def Entry.Due (runs : List Run) (log : List (Entry runs.length)) : Entry runs.length → Prop
  | .enter i .reset _ | .enter i .process _ => AllCalled runs .init log ∧ .left i ∉ log
  | .started => AllCalled runs .init log
  | .enter _ .destroy _ => ∀ j, .left j ∈ log
  | .stopped => AllCalled runs .destroy log
  | _ => True

/-- Every entry of a log stands behind what has to stand before it. -/
def InOrder (runs : List Run) (log : List (Entry runs.length)) : Prop :=
  ∀ before e after, log = before ++ e :: after → e.Due runs before

theorem InOrder.concat {log : List (Entry runs.length)} (h : InOrder runs log)
    {e : Entry runs.length} (due : e.Due runs log) : InOrder runs (log ++ [e]) := by
  intro before e' after eq
  rcases List.append_eq_append_iff.mp eq with ⟨more, rfl, hlast⟩ | ⟨rest, hlog, hlast⟩
  · cases more with
    | nil =>
      obtain ⟨rfl, -⟩ := List.cons.inj hlast
      simpa using due
    | cons first more => simp at hlast
  · cases rest with
    | nil =>
      obtain ⟨rfl, -⟩ := List.cons.inj hlast
      simpa [hlog] using due
    | cons first rest =>
      obtain ⟨rfl, -⟩ := List.cons.inj hlast
      exact h before e' rest hlog

/-- The log has kept up with the threads: a call that is no longer due is over, and the loops that
were left are those that their threads are behind. The desk has not brought up more threads than
it counts, and those that it has joined have finished. -/
structure Recorded (c : Crew runs) : Prop where
  called : ∀ (i : Fin runs.length) phase, phase = .init ∨ phase = .destroy →
    ∀ node ∈ (runs.get i).order,
      node ∈ (c.threads i).due (runs.get i).order phase ∨ .exit i phase node ∈ c.log
  left : ∀ i, .left i ∈ c.log ↔ 5 ≤ (c.threads i).height
  unborn : ∀ born, c.desk = .spawning born → ∀ i : Fin runs.length, born ≤ i →
    c.threads i = .unborn
  joined : ∀ joined, c.desk = .joining joined → ∀ i : Fin runs.length, i < joined →
    c.threads i = .finished

theorem Recorded.put (h : Recorded c) {s : Stage} {seen}
    (accounted : (c.threads i).Accounted (runs.get i).order i s seen)
    (unborn : ∀ born, c.desk = .spawning born → born ≤ i → s = .unborn) :
    Recorded (c.put i s seen) := by
  constructor
  case called =>
    intro j phase hp node hn
    by_cases hji : j = i
    · subst hji
      rcases h.called j phase hp node hn with due | ended
      · rcases accounted.called phase hp node due with due | ended
        · exact .inl (by simpa using due)
        · exact .inr (by simp [ended])
      · exact .inr (by simp [ended])
    · rcases h.called j phase hp node hn with due | ended
      · exact .inl (by simpa [hji] using due)
      · exact .inr (by simp [ended])
  case left =>
    intro j
    by_cases hji : j = i
    · subst hji
      simpa [h.left j] using accounted.left.symm
    · simpa [hji, h.left j] using fun seen ↦ absurd (accounted.alone j seen) hji
  case unborn =>
    intro born hd j hj
    by_cases hji : j = i
    · subst hji
      simpa using unborn born hd hj
    · simpa [hji] using h.unborn born hd j hj
  case joined =>
    intro joined hd j hj
    by_cases hji : j = i
    · subst hji
      simpa using accounted.finished (h.joined joined hd j hj)
    · simpa [hji] using h.joined joined hd j hj

theorem Recorded.seat (h : Recorded c) {d : Desk} {seen} (silent : ∀ j, .left j ∉ seen)
    (unborn : ∀ born, d = .spawning born → ∀ i : Fin runs.length, born ≤ i →
      c.threads i = .unborn)
    (joined : ∀ joined, d = .joining joined → ∀ i : Fin runs.length, i < joined →
      c.threads i = .finished) : Recorded (c.seat d seen) where
  called i phase hp node hn :=
    (h.called i phase hp node hn).imp id fun ended ↦ List.mem_append_left _ ended
  left i := by simpa [silent] using h.left i
  unborn := unborn
  joined := joined

theorem Recorded.wake (h : Recorded c) (gate : Gate) : Recorded (c.wake gate) where
  called i phase hp node hn := by simpa using h.called i phase hp node hn
  left i := by simpa using h.left i
  unborn born hd i hi := by
    have hd : c.desk = .spawning born := by
      simp only [desk_wake, Desk.wake] at hd
      split at hd <;> simp_all
    simp [h.unborn born hd i hi, Stage.wake]
  joined joined hd i hi := by
    have hd : c.desk = .joining joined := by
      simp only [desk_wake, Desk.wake] at hd
      split at hd <;> simp_all
    simp [h.joined joined hd i hi, Stage.wake]

theorem Recorded.setLatch (h : Recorded c) (gate : Gate) (l : Latch) :
    Recorded (c.setLatch gate l) :=
  ⟨h.called, h.left, h.unborn, h.joined⟩

/-! ## What holds of every crew -/

/-- What holds of a crew whatever moves it has made. -/
structure Sound (c : Crew runs) : Prop where
  counted : Counted c
  recorded : Recorded c
  ordered : InOrder runs c.log

/-- When the first gate is open, all nodes have been initialised. -/
theorem Sound.initialised (h : Sound c) (isOpen : (c.latch .start).remaining = 0) :
    AllCalled runs .init c.log := by
  intro j node hn
  have arrived : 3 ≤ (c.threads j).height := h.counted.arrived_of_open isOpen j
  rcases h.recorded.called j .init (.inl rfl) node hn with due | ended
  · simp [Stage.due_init_of_lt (show 1 < (c.threads j).height by omega)] at due
  · exact ended

/-- When the second gate is open, all loops have been left. -/
theorem Sound.left (h : Sound c) (isOpen : (c.latch .stop).remaining = 0) :
    ∀ j, .left j ∈ c.log := by
  intro j
  have arrived : 6 ≤ (c.threads j).height := h.counted.arrived_of_open isOpen j
  exact (h.recorded.left j).mpr (by omega)

/-- What a thread does between the gates stands in the log where it may. -/
theorem Sound.due_next (h : Sound c) (i : Fin runs.length) (fed : Bool) :
    ∀ e ∈ ((c.threads i).next (runs.get i).order i c.stopping fed).2, e.Due runs c.log := by
  have passed (gate : Gate) (above : gate.height < (c.threads i).height) :
      (c.latch gate).remaining = 0 := h.counted.passed gate i (.inl above)
  intro e he
  cases hs : c.threads i with
  | calling phase rest =>
    rw [hs] at he passed
    cases rest with
    | nil => simp [Stage.next] at he
    | cons node rest =>
      obtain rfl : e = .enter i phase node := by simpa [Stage.next] using he
      cases phase with
      | init => trivial
      | reset | process =>
        refine ⟨h.initialised (passed .start ?_), fun left ↦ ?_⟩
        · simp [Stage.height, phaseHeight, Gate.height]
        · simpa [hs, Stage.height, phaseHeight] using (h.recorded.left i).mp left
      | destroy => exact h.left (passed .stop (by simp [Stage.height, phaseHeight, Gate.height]))
  | inside phase node rest =>
    obtain rfl : e = .exit i phase node := by simpa [hs, Stage.next] using he
    trivial
  | looping =>
    cases hstop : c.stopping with
    | true =>
      obtain rfl : e = .left i := by simpa [hs, hstop, Stage.next] using he
      trivial
    | false => simp [hs, hstop, Stage.next] at he
  | _ => simp [hs, Stage.next] at he

theorem Sound.arrive (h : Sound c) {gate : Gate} (hi : c.threads i = .arriving gate) :
    Sound (c.arrive i gate) := by
  have unborn (born : ℕ) (hd : c.desk = .spawning born) : ¬ born ≤ i := by
    intro hb
    simpa [hi] using h.recorded.unborn born hd i hb
  by_cases early : 1 < (c.latch gate).remaining
  · refine ⟨h.counted.arrive_early hi early, ?_, ?_⟩
    · rw [arrive_of_early early]
      refine (h.recorded.setLatch gate _).put ?_ fun born hd hb ↦ absurd hb (unborn born hd)
      rw [threads_setLatch, hi]
      exact Stage.accounted_asleep _ i gate
    · rw [arrive_of_early early]
      simpa using h.ordered
  · have last : (c.latch gate).remaining ≤ 1 := by omega
    refine ⟨h.counted.arrive_last hi last, ?_, ?_⟩
    · rw [arrive_of_last last]
      refine ((h.recorded.setLatch gate ⟨0, 0⟩).wake gate).put ?_ fun born hd hb ↦ ?_
      · rw [threads_wake, threads_setLatch, hi]
        exact Stage.accounted_through _ i (.inl (by simp [Stage.wake]))
      · exact absurd (((h.recorded.setLatch gate ⟨0, 0⟩).wake gate).unborn born hd i hb)
          (by simp [hi, Stage.wake])
    · rw [arrive_of_last last]
      simpa using h.ordered

theorem Sound.work (h : Sound c) (i : Fin runs.length) (fed : Bool) : Sound (c.work i fed) := by
  have step (s : Stage) (hs : c.threads i = s) :
      Sound (c.put i (s.next (runs.get i).order i c.stopping fed).1
        (s.next (runs.get i).order i c.stopping fed).2) := by
    subst hs
    constructor
    case counted => exact h.counted.put (Stage.level_next _ i _ _ _) _
    case recorded =>
      refine h.recorded.put (Stage.accounted_next _ i _ _ _) fun born hd hb ↦ ?_
      rw [h.recorded.unborn born hd i hb]
      rfl
    case ordered =>
      have due := h.due_next i fed
      have short := Stage.length_seen_next_le (runs.get i).order i c.stopping fed (c.threads i)
      rw [log_put]
      match hseen : ((c.threads i).next (runs.get i).order i c.stopping fed).2 with
      | [] => simpa using h.ordered
      | [e] =>
        rw [hseen] at due
        exact h.ordered.concat (due e (List.mem_singleton_self e))
      | _ :: _ :: _ =>
        rw [hseen] at short
        simp at short
  cases hs : c.threads i with
  | arriving gate => simpa [Crew.work, hs] using h.arrive hs
  | waiting gate asleep =>
    cases asleep with
    | true => simpa [Crew.work, hs] using step _ hs
    | false =>
      simp only [Crew.work, hs, h.counted.recheck_eq hs]
      constructor
      case counted => exact h.counted.put (hs ▸ Stage.level_through _ gate) []
      case recorded =>
        refine h.recorded.put (Stage.accounted_through _ i (.inr hs)) fun born hd hb ↦ ?_
        simpa [hs] using h.recorded.unborn born hd i hb
      case ordered => simpa using h.ordered
  | _ => simpa [Crew.work, hs] using step _ hs

/-- The desk goes on without anything being seen of it. -/
theorem Sound.seat (h : Sound c) {d : Desk} (awake : ∀ gate, c.desk.sleepers gate = 0)
    (awake' : ∀ gate, d.sleepers gate = 0)
    (unborn : ∀ born, d = .spawning born → ∀ i : Fin runs.length, born ≤ i →
      c.threads i = .unborn)
    (joined : ∀ joined, d = .joining joined → ∀ i : Fin runs.length, i < joined →
      c.threads i = .finished) : Sound (c.seat d []) where
  counted := h.counted.seat awake awake' []
  recorded := h.recorded.seat (by simp) unborn joined
  ordered := by simpa using h.ordered

theorem Sound.spawn (h : Sound c) {born : ℕ} (hd : c.desk = .spawning born)
    (hb : born < runs.length) :
    Sound ((c.put ⟨born, hb⟩ (.calling .init (runs.get ⟨born, hb⟩).order) []).seat
      (.spawning (born + 1)) []) := by
  have unborn : c.threads ⟨born, hb⟩ = .unborn :=
    h.recorded.unborn born hd ⟨born, hb⟩ le_rfl
  have awake (gate) : c.desk.sleepers gate = 0 := by simp [hd, Desk.sleepers]
  constructor
  case counted =>
    refine (h.counted.put ?_ []).seat awake (by simp [Desk.sleepers]) []
    rw [unborn]
    constructor <;> intro gate <;> cases gate <;> simp [Stage.height, phaseHeight, Gate.height]
  case recorded =>
    -- The desk counts the thread first, so that no thread moves that is still to come.
    have counted : Recorded (c.seat (.spawning (born + 1)) []) := by
      refine h.recorded.seat (by simp) (fun b hb' i hi ↦ ?_) (by simp)
      obtain rfl : born + 1 = b := by simpa using hb'
      exact h.recorded.unborn born hd i (by omega)
    have birth : Recorded ((c.seat (.spawning (born + 1)) []).put ⟨born, hb⟩
        (.calling .init (runs.get ⟨born, hb⟩).order) []) := by
      refine counted.put ?_ fun b hb' hle ↦ ?_
      · rw [threads_seat, unborn]
        constructor <;> simp +contextual [Stage.due, Stage.height, phaseHeight]
      · obtain rfl : born + 1 = b := by simpa using hb'
        have : born + 1 ≤ born := hle
        omega
    exact ⟨birth.called, birth.left, birth.unborn, birth.joined⟩
  case ordered => simpa using h.ordered

theorem Sound.await (h : Sound c) {gate : Gate} (hd : c.desk = .waiting gate false) :
    Sound (c.await gate) := by
  refine ⟨h.counted.await hd, ?_, ?_⟩
  · by_cases isOpen : (c.latch gate).remaining = 0
    · rw [await_of_open isOpen]
      cases gate <;> exact h.recorded.seat (by simp [Desk.seen]) (by simp [Desk.through])
        (by simp +contextual [Desk.through])
    · rw [await_of_closed isOpen]
      exact (h.recorded.setLatch _ _).seat (by simp) (by simp) (by simp)
  · by_cases isOpen : (c.latch gate).remaining = 0
    · rw [await_of_open isOpen]
      cases gate with
      | start => exact h.ordered.concat (h.initialised isOpen)
      | stop => simpa [Desk.seen] using h.ordered
    · rw [await_of_closed isOpen]
      simpa using h.ordered

theorem Sound.join (h : Sound c) {joined : ℕ} (hd : c.desk = .joining joined)
    (hj : runs.length ≤ joined) : Sound (c.seat .stopped [.stopped]) := by
  have finished (j : Fin runs.length) : c.threads j = .finished :=
    h.recorded.joined joined hd j (by omega)
  constructor
  case counted =>
    exact h.counted.seat (by simp [hd, Desk.sleepers]) (by simp [Desk.sleepers]) _
  case recorded => exact h.recorded.seat (by simp) (by simp) (by simp)
  case ordered =>
    refine h.ordered.concat fun j node hn ↦ ?_
    have := h.recorded.called j .destroy (.inr rfl) node hn
    simpa [finished j, Stage.due, Stage.height, phaseHeight] using this

theorem Sound.direct (h : Sound c) : Sound c.direct := by
  cases hd : c.desk with
  | spawning born =>
    by_cases hb : born < runs.length
    · simpa [Crew.direct, hd, hb] using h.spawn hd hb
    · simpa [Crew.direct, hd, hb] using
        h.seat (d := .waiting .start false) (by simp [hd, Desk.sleepers])
          (by simp [Desk.sleepers]) (by simp) (by simp)
  | waiting gate asleep =>
    cases asleep with
    | true => simpa [Crew.direct, hd] using h
    | false => simpa [Crew.direct, hd] using h.await hd
  | running =>
    have seated := h.seat (d := .waiting .stop false) (by simp [hd, Desk.sleepers])
      (by simp [Desk.sleepers]) (by simp) (by simp)
    simp only [Crew.direct, hd]
    exact ⟨⟨seated.counted.remaining, seated.counted.waiting, seated.counted.passed,
      seated.counted.empty⟩, ⟨seated.recorded.called, seated.recorded.left,
      seated.recorded.unborn, seated.recorded.joined⟩, seated.ordered⟩
  | joining joined =>
    by_cases hj : joined < runs.length
    · by_cases finished : c.threads ⟨joined, hj⟩ = .finished
      · suffices Sound (c.seat (.joining (joined + 1)) []) by
          simpa [Crew.direct, hd, hj, finished] using this
        refine h.seat (by simp [hd, Desk.sleepers]) (by simp [Desk.sleepers]) (by simp)
          fun k hk i hi ↦ ?_
        obtain rfl : joined + 1 = k := by simpa using hk
        by_cases hij : (i : ℕ) = joined
        · obtain rfl : i = ⟨joined, hj⟩ := Fin.ext hij
          exact finished
        · exact h.recorded.joined joined hd i (by omega)
      · simpa [Crew.direct, hd, hj, finished] using h
    · simpa [Crew.direct, hd, hj] using h.join hd (by omega)
  | stopped => simpa [Crew.direct, hd] using h

theorem Sound.move (h : Sound c) (m : Move runs.length) : Sound (c.move m) := by
  cases m with
  | thread i fed => exact h.work i fed
  | desk => exact h.direct

theorem sound_fresh (runs : List Run) : Sound (fresh runs) where
  counted := {
    remaining gate := by
      cases gate <;> simp [fresh, Latch.reset, below, Stage.height, Gate.height]
    waiting gate := by
      simp [fresh, Latch.reset, Latch.opened, sleepers, Desk.sleepers]
    passed gate i := by simp [fresh, Stage.height]
    empty gate _ := rfl }
  recorded := {
    called i phase hp node hn := by
      rcases hp with rfl | rfl <;>
        exact .inl (by simpa [fresh, Stage.due, Stage.height, phaseHeight] using hn)
    left i := by simp [fresh, Stage.height]
    unborn born _ i _ := rfl
    joined joined hd := by simp [fresh] at hd }
  ordered before e after eq := by simp [fresh] at eq

theorem sound_after (runs : List Run) (moves : List (Move runs.length)) :
    Sound ((fresh runs).after moves) := by
  induction moves using List.reverseRecOn with
  | nil => exact sound_fresh runs
  | append_singleton moves m ih =>
    rw [after_concat]
    exact ih.move m

/-- What the gates of a crew are for. -/
structure Guarded (c : Crew runs) : Prop where
  /-- A node is reset or processed only when all nodes of all threads have been initialised, and
  its thread does neither once it has left its loop. -/
  initialised : ∀ before i phase node after, phase = .reset ∨ phase = .process →
    c.log = before ++ .enter i phase node :: after →
      AllCalled runs .init before ∧ .left i ∉ before
  /-- The graph is started only when all nodes of all threads have been initialised. -/
  started : ∀ before after, c.log = before ++ .started :: after → AllCalled runs .init before
  /-- A node is destroyed only when every thread has left its loop. -/
  left : ∀ before i node after, c.log = before ++ .enter i .destroy node :: after →
    ∀ j, .left j ∈ before
  /-- The graph is stopped only when all nodes of all threads have been destroyed. -/
  stopped : ∀ before after, c.log = before ++ .stopped :: after → AllCalled runs .destroy before
  /-- When all threads have arrived at a gate its latch is open, and nobody sleeps there. -/
  awake : ∀ gate, (∀ j, (c.threads j).HasArrived gate) →
    (c.latch gate).isOpen ∧ (∀ j, c.threads j ≠ .waiting gate true) ∧
      c.desk ≠ .waiting gate true
  /-- When all threads have arrived at a gate, a thread that waits there goes through with its
  next step. -/
  thread_passes : ∀ gate, (∀ j, (c.threads j).HasArrived gate) →
    ∀ (i : Fin runs.length) asleep fed, c.threads i = .waiting gate asleep →
      (c.move (.thread i fed)).threads i = .through (runs.get i).order gate
  /-- When all threads have arrived at a gate, the desk goes through with its next step if it
  waits there. -/
  desk_passes : ∀ gate, (∀ j, (c.threads j).HasArrived gate) →
    ∀ asleep, c.desk = .waiting gate asleep → (c.move .desk).desk = .through gate

/-- However many threads a crew has and however their steps are mixed with those of the desk,
its gates do what they are for. -/
theorem guarded_after (runs : List Run) (moves : List (Move runs.length)) :
    Guarded ((fresh runs).after moves) := by
  have sound := sound_after runs moves
  generalize (fresh runs).after moves = c at sound
  constructor
  case initialised =>
    intro before i phase node after hp eq
    have due := sound.ordered before _ after eq
    rcases hp with rfl | rfl <;> exact due
  case started => exact fun before after eq ↦ sound.ordered before _ after eq
  case left => exact fun before i node after eq ↦ sound.ordered before _ after eq
  case stopped => exact fun before after eq ↦ sound.ordered before _ after eq
  case awake =>
    intro gate arrived
    have isOpen := sound.counted.open_of_arrived arrived
    exact ⟨by simp [Latch.isOpen, isOpen], sound.counted.awake isOpen⟩
  case thread_passes =>
    intro gate arrived i asleep fed hi
    have awake := sound.counted.awake (sound.counted.open_of_arrived arrived)
    cases asleep with
    | true => exact absurd hi (awake.1 i)
    | false => simp [Crew.move, Crew.work, hi, sound.counted.recheck_eq hi]
  case desk_passes =>
    intro gate arrived asleep hd
    have isOpen := sound.counted.open_of_arrived arrived
    cases asleep with
    | true => exact absurd hd (sound.counted.awake isOpen).2
    | false => simp [Crew.move, Crew.direct, hd, await_of_open isOpen]

/-- A crew of two threads that goes through both gates: the desk and one of the threads sleep at
each of them until the other thread arrives. -/
example :
    let runs : List Run := [⟨⟨0⟩, [⟨0⟩], true⟩, ⟨⟨1⟩, [⟨1⟩], true⟩]
    let first : Move runs.length := .thread 0 false
    let second : Move runs.length := .thread 1 false
    let moves := [.desk, .desk, .desk, .desk, first, first, first, first, second, second, second,
      second, .desk, .desk, .desk, first, first, first, second, second, second, second, second,
      first, first, first, first, .desk, .desk, .desk, .desk]
    ((fresh runs).after moves).desk = .stopped := by
  decide

end Crew

end SignalFlow
