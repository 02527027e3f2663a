import SignalFlow.Proofs.Graph.Motions
import SignalFlow.Proofs.Graph.Rows

/-!
# Threads taking turns

While a graph runs its threads iterate, and the order in which they do so is a list of subgraphs.
A turn of a thread leaves the nodes and the own queues of other subgraphs alone, and uses no other
end of a connection than those of its subgraph.
-/

namespace SignalFlow.Graph

open Transfer

variable {σ ω : Type} [Behaviour σ ω] {g x y : Graph σ ω} {t : Topology} {s a : SubgraphId}
  {past more ids : List SubgraphId} {own : NodeId → QueueId → Prop} {run : Run} {queue : QueueId}
  {id : NodeId} {nodes : List NodeId}

/-- The graph behind an iteration of the thread of a subgraph. -/
def turn (g : Graph σ ω) (s : SubgraphId) : Graph σ ω :=
  Operation.apply g (.iterate s)

/-- The graph behind iterations of the threads of subgraphs, one after the other. -/
def turns (g : Graph σ ω) (ids : List SubgraphId) : Graph σ ω :=
  g.after (ids.map .iterate)

/-- What an iteration does with queues. -/
def movedBy (g : Graph σ ω) (s : SubgraphId) : List Transfer :=
  transfersIn (Operation.calls g (.iterate s))

def moved (g : Graph σ ω) (ids : List SubgraphId) : List Transfer :=
  transfersIn (g.history (ids.map .iterate))

/-- What becomes of an iteration, if the subgraph has a thread. -/
def kindOf (g : Graph σ ω) (s : SubgraphId) : Option Iteration :=
  (g.run? s).map fun run ↦ (g.iterate run).2.2

/-- Whether the thread of a subgraph executes a cycle, if only to its death. -/
def executes (g : Graph σ ω) (s : SubgraphId) : Bool :=
  g.kindOf s = some .cycle ∨ g.kindOf s = some .died

/-- The graphs in which the thread of a subgraph begins to execute a cycle. -/
def cyclesOf (s : SubgraphId) : List SubgraphId → Graph σ ω → List (Graph σ ω)
  | [], _ => []
  | next :: rest, g =>
    (if next = s ∧ g.executes s then [g] else []) ++ cyclesOf s rest (g.turn next)

theorem turns_append (g : Graph σ ω) (past more : List SubgraphId) :
    g.turns (past ++ more) = (g.turns past).turns more := by
  rw [turns, List.map_append, after_append]
  rfl

theorem turns_concat (g : Graph σ ω) (past : List SubgraphId) (s : SubgraphId) :
    g.turns (past ++ [s]) = (g.turns past).turn s :=
  g.turns_append past [s]

theorem moved_concat (g : Graph σ ω) (past : List SubgraphId) (s : SubgraphId) :
    g.moved (past ++ [s]) = g.moved past ++ (g.turns past).movedBy s := by
  calc
    g.moved (past ++ [s]) =
        g.moved past ++ transfersIn (Operation.calls (g.turns past) (.iterate s) ++ []) := by
      rw [moved, List.map_append, history_append, transfersIn_append]
      rfl
    _ = g.moved past ++ (g.turns past).movedBy s := by
      rw [List.append_nil]
      rfl

theorem cyclesOf_append (s : SubgraphId) (past more : List SubgraphId) (g : Graph σ ω) :
    cyclesOf s (past ++ more) g = cyclesOf s past g ++ cyclesOf s more (g.turns past) := by
  induction past generalizing g with
  | nil => rfl
  | cons next rest ih =>
    let first := if next = s ∧ g.executes s then [g] else []
    calc
      first ++ cyclesOf s (rest ++ more) (g.turn next) =
          first ++ (cyclesOf s rest (g.turn next) ++
            cyclesOf s more ((g.turn next).turns rest)) := congrArg _ (ih _)
      _ = (first ++ cyclesOf s rest (g.turn next)) ++
            cyclesOf s more ((g.turn next).turns rest) := (List.append_assoc ..).symm

theorem cyclesOf_concat (s : SubgraphId) (past : List SubgraphId) (a : SubgraphId)
    (g : Graph σ ω) : cyclesOf s (past ++ [a]) g =
      cyclesOf s past g ++ if a = s ∧ (g.turns past).executes s then [g.turns past] else [] := by
  rw [cyclesOf_append]
  congr 1
  exact List.append_nil _

/-- A cycle is executed behind some turns, among which are all cycles before it. -/
theorem exists_of_getElem?_cyclesOf {k : Nat} (h : (cyclesOf s ids g)[k]? = some x) :
    ∃ past rest, ids = past ++ s :: rest ∧ x = g.turns past ∧ (cyclesOf s past g).length = k ∧
      x.executes s = true := by
  induction ids using List.reverseRecOn with
  | nil => cases h
  | append_singleton past next ih =>
    rw [cyclesOf_concat, List.getElem?_append] at h
    split at h
    · obtain ⟨past', rest, rfl, hx⟩ := ih h
      exact ⟨past', rest ++ [next], by rw [List.append_assoc, List.cons_append], hx⟩
    · next hlength =>
      split at h
      · next hexecutes =>
        obtain ⟨rfl, hexecutes⟩ := hexecutes
        obtain ⟨hk, rfl⟩ := List.getElem?_eq_some_iff.1 h
        have hzero : k - (cyclesOf next past g).length = 0 := by simpa using hk
        refine ⟨past, [], rfl, ?_, by omega, ?_⟩
        · simp
        · simpa using hexecutes
      · cases h

/-- A turn in which a thread executes a cycle. -/
structure CycleTurn (g : Graph σ ω) (s : SubgraphId) (run : Run) : Prop where
  thread : g.run? s = some run
  alive : run.alive = true
  fed : g.isStarved run.subgraph = false
  kind : g.kindOf s = some (if ((g.caughtUp run).cycle run).2.2 then .cycle else .died)
  nodes : (g.turn s).slots = ((g.caughtUp run).cycle run).1.slots
  queues : (g.turn s).queues = ((g.caughtUp run).cycle run).1.queues
  moved : g.movedBy s = transfersIn ((g.caughtUp run).callsCycle run)

theorem turn_eq (hrun : g.run? s = some run) : g.turn s = (g.iterate run).1 := by
  rw [turn, Operation.apply, hrun, Option.elim_some]

theorem movedBy_eq (hrun : g.run? s = some run) :
    g.movedBy s = transfersIn (g.callsIterate run) := by
  rw [movedBy, Operation.calls, hrun, Option.elim_some]

theorem kindOf_eq (hrun : g.run? s = some run) : g.kindOf s = some (g.iterate run).2.2 := by
  rw [kindOf, hrun, Option.map_some]

/-- Without a cycle a turn moves nothing, and leaves the graph as it is, or with controls set. -/
theorem rests_of_not_executes (hp : g.partition.WellFormed) (h : g.executes s = false) :
    g.movedBy s = [] ∧ (g.turn s = g ∨
      ∃ run, g.run? s = some run ∧ run.alive = true ∧ g.turn s = g.caughtUp run) := by
  cases hrun : g.run? s with
  | none => simp [movedBy, turn, Operation.calls, Operation.apply, hrun, transfersIn]
  | some run =>
    rw [movedBy_eq hrun, turn_eq hrun]
    cases halive : run.alive with
    | false => exact ⟨by simp [callsIterate, halive, transfersIn], .inl (by simp [iterate, halive])⟩
    | true =>
      rcases iterate_cases hp halive with ⟨hstarved, -, hcalls⟩ | ⟨-, -, hkind⟩
      · refine ⟨by rw [hcalls]; rfl, .inr ⟨run, rfl, halive, ?_⟩⟩
        exact fst_iterate_of_isStarved hp halive hstarved
      · rw [executes, kindOf_eq hrun] at h
        rcases hkind with ⟨hkind, -⟩ | hkind
        all_goals simp [hkind] at h

/-- A thread that executes a cycle is alive and has data. -/
theorem exists_cycleTurn (hp : g.partition.WellFormed) (h : g.executes s = true) :
    ∃ run, g.CycleTurn s run := by
  cases hrun : g.run? s with
  | none => simp [executes, kindOf, hrun] at h
  | some run =>
    rw [executes, kindOf_eq hrun] at h
    cases halive : run.alive with
    | false => simp [iterate, halive] at h
    | true =>
      rcases iterate_cases hp halive with ⟨-, hidle, -⟩ | ⟨hfed, hcalls, -⟩
      · simp [hidle] at h
      · have hadvance := advance_of_fed halive ((isStarved_caughtUp hp run _).trans hfed)
        refine ⟨run, ?_⟩
        constructor
        case thread => exact hrun
        case alive => exact halive
        case fed => exact hfed
        case kind =>
          rw [kindOf_eq hrun, kind_iterate halive, hadvance]
          split <;> rfl
        case nodes =>
          rw [turn_eq hrun, fst_iterate halive, hadvance]
          split <;> rfl
        case queues =>
          rw [turn_eq hrun, fst_iterate halive, hadvance]
          split <;> rfl
        case moved => rw [movedBy_eq hrun, hcalls]

/-- Graphs with the same threads and subgraphs. -/
structure Kin (g g' : Graph σ ω) : Prop where
  duties : g'.duties = g.duties
  partition : g.partition.SameTopology g'.partition
  adapters : seen (fun n ↦ n.role.adapter?) g' = seen (fun n ↦ n.role.adapter?) g
  threadName : g'.threadName = g.threadName

theorem threadName_steps {owns : NodeId → Prop} {g' : Graph σ ω} (h : Steps owns g g') :
    g'.threadName = g.threadName := by
  induction h with
  | refl => rfl
  | tail _ hstep ih =>
    refine Eq.trans ?_ ih
    cases hstep with
    | @call phase thread id hown =>
      funext s
      unfold Graph.call
      split <;> rfl
    | attempt hown => rfl
    | bury s => rfl

namespace Kin

omit [Behaviour σ ω] in
protected theorem refl (g : Graph σ ω) : g.Kin g :=
  ⟨rfl, .refl _, rfl, rfl⟩

omit [Behaviour σ ω] in
protected theorem symm (h : g.Kin x) : x.Kin g :=
  ⟨h.duties.symm, h.partition.symm, h.adapters.symm, h.threadName.symm⟩

omit [Behaviour σ ω] in
protected theorem trans (h : g.Kin x) (h' : x.Kin y) : g.Kin y where
  duties := h'.duties.trans h.duties
  partition := h.partition.trans h'.partition
  adapters := h'.adapters.trans h.adapters
  threadName := h'.threadName.trans h.threadName

theorem iterate (g : Graph σ ω) {run : Run} (halive : run.alive = true) :
    g.Kin (g.iterate run).1 where
  duties := duties_iterate g run
  partition := by
    rw [partition_iterate, if_pos halive]
    exact .receive g.partition run.subgraph
  adapters := lasts_adapter.iterate g run
  threadName := by
    have hsteps := threadName_steps (g.steps_iterate halive)
    exact hsteps

theorem turn (g : Graph σ ω) (s : SubgraphId) : g.Kin (g.turn s) := by
  cases hrun : g.run? s with
  | none =>
    rw [Graph.turn, Operation.apply, hrun]
    exact .refl g
  | some run =>
    rw [turn_eq hrun]
    cases halive : run.alive with
    | true => exact .iterate g halive
    | false =>
      rw [Graph.iterate, if_pos (by simp [halive])]
      exact .refl g

theorem turns (g : Graph σ ω) (ids : List SubgraphId) : g.Kin (g.turns ids) := by
  induction ids using List.reverseRecOn with
  | nil => exact .refl g
  | append_singleton past s ih =>
    rw [turns_concat]
    exact ih.trans (.turn _ s)

end Kin

end SignalFlow.Graph
