import SignalFlow.Proofs.Graph.HandOver
import SignalFlow.Proofs.Graph.Turns

/-!
# Rolls of calls

The roll of some nodes lists their calls, each by its phase. A thread calls its nodes one after the
other, and it goes on behind a call unless it has to report how the call ended and the node does not
give it its name. So if every node gives its name, the nodes of a thread are all called, whatever
becomes of the calls.
-/

namespace SignalFlow

variable {σ ω : Type} [Behaviour σ ω]

namespace Call

def ending (c : Call σ ω) : Except Stop Unit :=
  (c.graph.call c.phase c.thread c.node).2.1

def behind (c : Call σ ω) : Graph σ ω :=
  (c.graph.call c.phase c.thread c.node).1

/-- Whether the node gives its name to the thread if that has to report how the call ended. -/
def answers (c : Call σ ω) : Bool :=
  match c.thread, c.ending, c.behind.slot? c.node with
  | some thread, .error _, some slot => (slot.node.role.naming thread).panic.isNone
  | _, _, _ => true

end Call

namespace Graph

variable {g g' : Graph σ ω} {t : Topology} {phase : Phase} {thread : String} {id : NodeId}
  {ids nodes order : List NodeId} {s a : SubgraphId} {run : Run} {c : Call σ ω}
  {calls : List (Call σ ω)} {operation : Operation σ ω} {more : List (Operation σ ω)}

/-- A start, operations, and a stop. -/
def round (spawner : Spawner) (more : List (Operation σ ω)) : List (Operation σ ω) :=
  .start spawner :: more ++ [.stop]

/-- The calls of some nodes, by phase and node. -/
def roll (nodes : List NodeId) (calls : List (Call σ ω)) : List (Phase × NodeId) :=
  (calls.filter (·.node ∈ nodes)).map fun c ↦ (c.phase, c.node)

def row (phase : Phase) (order : List NodeId) : List (Phase × NodeId) :=
  order.map (phase, ·)

/-- The calls of nodes that live through so many cycles. -/
def lifetime (order : List NodeId) (cycles : Nat) : List (Phase × NodeId) :=
  row .init order ++ (List.replicate cycles (row .reset order ++ row .process order)).flatten ++
    row .destroy order

/-- Whether an operation is an iteration in which the thread of a subgraph executes a cycle. -/
def Operation.completes (g : Graph σ ω) (s : SubgraphId) : Operation σ ω → Bool
  | .iterate a => a = s ∧ g.kindOf s = some .cycle
  | _ => false

/-- The number of cycles that the thread of a subgraph executes in operations. -/
def cyclesIn (s : SubgraphId) : List (Operation σ ω) → Graph σ ω → Nat
  | [], _ => 0
  | operation :: rest, g =>
    (if operation.completes g s then 1 else 0) + cyclesIn s rest (operation.apply g)

theorem cyclesIn_append (s : SubgraphId) (past more : List (Operation σ ω)) (g : Graph σ ω) :
    cyclesIn s (past ++ more) g = cyclesIn s past g + cyclesIn s more (g.after past) := by
  induction past generalizing g with
  | nil => exact (Nat.zero_add _).symm
  | cons operation rest ih =>
    calc
      cyclesIn s (operation :: (rest ++ more)) g =
          (if operation.completes g s then 1 else 0) + (cyclesIn s rest (operation.apply g) +
            cyclesIn s more ((operation.apply g).after rest)) := congrArg _ (ih _)
      _ = cyclesIn s (operation :: rest) g + cyclesIn s more (g.after (operation :: rest)) :=
        (Nat.add_assoc ..).symm

theorem cyclesIn_round (s : SubgraphId) (spawner : Spawner) (more : List (Operation σ ω))
    (g : Graph σ ω) :
    cyclesIn s (round spawner more) g = cyclesIn s more (g.start spawner).1 := by
  rw [round, cyclesIn_append, cyclesIn]
  exact Nat.zero_add _

omit [Behaviour σ ω] in
theorem roll_append (nodes : List NodeId) (first second : List (Call σ ω)) :
    roll nodes (first ++ second) = roll nodes first ++ roll nodes second := by
  rw [roll, List.filter_append, List.map_append]
  rfl

omit [Behaviour σ ω] in
theorem roll_eq_nil (h : ∀ c ∈ calls, c.node ∉ nodes) : roll nodes calls = [] := by
  refine List.map_eq_nil_iff.2 (List.filter_eq_nil_iff.2 fun c hc hnode ↦ ?_)
  exact h c hc (of_decide_eq_true hnode)

theorem node_mem_of_callsAll (h : c ∈ callsAll phase thread ids g) : c.node ∈ ids := by
  obtain ⟨before, behind, hids, -⟩ := exists_of_mem_callsAll h
  rw [hids]
  exact List.mem_append_right _ List.mem_cons_self

/-- A thread goes on behind a call that it need not report or whose node gives its name. -/
theorem isSome_visit? (h : (⟨g, phase, some thread, id⟩ : Call σ ω).answers = true) :
    (visit? phase thread g id).isSome := by
  have hgoes : ((g.call phase (some thread) id).1.reportEnding phase thread id
      (g.call phase (some thread) id).2.1).2 = true := by
    unfold Call.answers Call.ending Call.behind at h
    dsimp only at h
    unfold reportEnding
    cases hending : (g.call phase (some thread) id).2.1 with
    | ok done => rfl
    | error stop =>
      cases hslot : (g.call phase (some thread) id).1.slot? id with
      | none => rfl
      | some slot =>
        rw [hending, hslot] at h
        dsimp only at h ⊢
        rw [Option.isNone_iff_eq_none.1 h]
  rw [visit?_eq, if_pos hgoes]
  rfl

/-- If all nodes give their names they are all called, and the thread goes on. -/
theorem roll_callsAll (hids : ∀ id ∈ ids, id ∈ nodes)
    (h : ∀ c ∈ callsAll phase thread ids g, c.answers) :
    roll nodes (callsAll phase thread ids g) = row phase ids ∧
      (visitAll? phase thread ids g).isSome := by
  induction ids generalizing g with
  | nil => exact ⟨rfl, rfl⟩
  | cons id ids ih =>
    rw [callsAll_cons] at h ⊢
    obtain ⟨hfirst, hrest⟩ := List.forall_mem_cons.1 h
    obtain ⟨hid, hids⟩ := List.forall_mem_cons.1 hids
    obtain ⟨g', hg'⟩ := Option.isSome_iff_exists.1 (isSome_visit? hfirst)
    rw [hg', Option.elim_some] at hrest ⊢
    obtain ⟨hroll, halive⟩ := ih hids hrest
    rw [visitAll?_cons, hg', Option.bind_some]
    refine ⟨?_, halive⟩
    rw [roll, List.filter_cons, if_pos (decide_eq_true hid), List.map_cons]
    exact congrArg ((phase, id) :: ·) hroll

/-- If all nodes give their names, a cycle resets all and processes all. -/
theorem roll_callsCycle (horder : ∀ id ∈ run.order, id ∈ nodes)
    (h : ∀ c ∈ g.callsCycle run, c.answers) :
    roll nodes (g.callsCycle run) = row .reset run.order ++ row .process run.order ∧
      (g.cycle run).2.2 = true := by
  obtain ⟨hreset, hprocess⟩ := List.forall_mem_append.1 h
  obtain ⟨hrollReset, halive⟩ := roll_callsAll horder hreset
  obtain ⟨reset, hreset⟩ := Option.isSome_iff_exists.1 halive
  rw [hreset, Option.elim_some] at hprocess
  obtain ⟨hrollProcess, halive⟩ := roll_callsAll horder hprocess
  have hcycle : (g.cycle? run).isSome := by
    rw [cycle?, hreset]
    exact halive
  rw [cycle?_eq] at hcycle
  constructor
  · calc
      roll nodes (g.callsCycle run) =
          roll nodes (callsAll .reset (g.threadName run.subgraph) run.order g) ++
            roll nodes (callsAll .process (g.threadName run.subgraph) run.order reset) := by
        rw [callsCycle, hreset, Option.elim_some, roll_append]
      _ = row .reset run.order ++ row .process run.order := by rw [hrollReset, hrollProcess]
  · by_contra hdead
    rw [if_neg hdead] at hcycle
    cases hcycle

theorem node_mem_of_callsIterate (h : c ∈ g.callsIterate run) : c.node ∈ run.order := by
  unfold callsIterate at h
  split at h
  · cases h
  · rcases List.mem_append.1 h with hreset | hprocess
    · exact node_mem_of_callsAll hreset
    · cases hvisited : visitAll? .reset ((g.caughtUp run).threadName run.subgraph) run.order
          (g.caughtUp run) with
      | none =>
        rw [hvisited] at hprocess
        cases hprocess
      | some reset =>
        rw [hvisited] at hprocess
        exact node_mem_of_callsAll hprocess

section Each

variable {act : Graph σ ω → Run → Graph σ ω × List (Report ω)}
  {each : Graph σ ω → Run → List (Call σ ω)} {runs before behind : List Run}

omit [Behaviour σ ω] in
theorem fst_eachRun_append (act : Graph σ ω → Run → Graph σ ω × List (Report ω))
    (before behind : List Run) (g : Graph σ ω) :
    (eachRun act (before ++ behind) g).1 = (eachRun act behind (eachRun act before g).1).1 := by
  induction before generalizing g with
  | nil => rfl
  | cons run rest ih => exact ih _

omit [Behaviour σ ω] in
theorem callsEach_append (act : Graph σ ω → Run → Graph σ ω × List (Report ω))
    (each : Graph σ ω → Run → List (Call σ ω)) (before behind : List Run) (g : Graph σ ω) :
    callsEach act each (before ++ behind) g =
      callsEach act each before g ++ callsEach act each behind (eachRun act before g).1 := by
  induction before generalizing g with
  | nil => rfl
  | cons run rest ih =>
    calc
      callsEach act each (run :: (rest ++ behind)) g =
          each g run ++ (callsEach act each rest (act g run).1 ++
            callsEach act each behind (eachRun act rest (act g run).1).1) := congrArg _ (ih _)
      _ = callsEach act each (run :: rest) g ++
            callsEach act each behind (eachRun act (run :: rest) g).1 :=
        (List.append_assoc ..).symm

omit [Behaviour σ ω] in
theorem roll_callsEach_eq_nil (h : ∀ run ∈ runs, ∀ g, ∀ c ∈ each g run, c.node ∉ nodes) :
    roll nodes (callsEach act each runs g) = [] := by
  refine roll_eq_nil fun c hc ↦ ?_
  obtain ⟨before, run, behind, rfl, hcall⟩ := exists_of_mem_callsEach hc
  exact h run (List.mem_append_right _ List.mem_cons_self) _ c hcall

omit [Behaviour σ ω] in
/-- Of all threads only one calls the nodes of its subgraph. -/
theorem roll_callsEach
    (h : ∀ other ∈ before ++ behind, ∀ g, ∀ c ∈ each g other, c.node ∉ nodes) :
    roll nodes (callsEach act each (before ++ run :: behind) g) =
      roll nodes (each (eachRun act before g).1 run) := by
  obtain ⟨hbefore, hbehind⟩ := List.forall_mem_append.1 h
  let reached := (eachRun act before g).1
  calc
    roll nodes (callsEach act each (before ++ run :: behind) g) =
        roll nodes (callsEach act each before g) ++ (roll nodes (each reached run) ++
          roll nodes (callsEach act each behind (act reached run).1)) := by
      rw [callsEach_append, callsEach, roll_append, roll_append]
    _ = roll nodes (each reached run) := by
      rw [roll_callsEach_eq_nil hbefore, roll_callsEach_eq_nil hbehind, List.nil_append,
        List.append_nil]

end Each

omit [Behaviour σ ω] in
theorem run?_bury_of_ne (g : Graph σ ω) (hne : a ≠ s) : (g.bury a).run? s = g.run? s := by
  unfold run? bury
  cases g.runs with
  | none => rfl
  | some runs =>
    dsimp only [Option.map_some, Option.getD_some]
    rw [List.find?_map]
    have hsame : ((fun r : Run ↦ r.subgraph == s) ∘
        fun r : Run ↦ if r.subgraph = a then { r with alive := false } else r) =
          fun r ↦ r.subgraph == s := by
      funext r
      dsimp only [Function.comp]
      split <;> rfl
    rw [hsame]
    cases hfound : runs.find? (·.subgraph == s) with
    | none => rfl
    | some r =>
      have hs : r.subgraph = s := by simpa using List.find?_some hfound
      rw [Option.map_some, if_neg fun h ↦ hne (h.symm.trans hs)]

theorem runs_call (g : Graph σ ω) (phase : Phase) (thread : Option String) (id : NodeId) :
    (g.call phase thread id).1.runs = g.runs := by
  unfold call
  split <;> rfl

theorem runs_callAll (phase : Phase) (thread : String) (ids : List NodeId) (g : Graph σ ω) :
    (callAll phase thread ids g).1.runs = g.runs := by
  induction ids generalizing g with
  | nil => rfl
  | cons id ids ih =>
    have hcall := runs_call g phase (some thread) id
    unfold callAll
    dsimp only
    split
    · exact (ih _).trans hcall
    · exact hcall

theorem runs_cycle (g : Graph σ ω) (run : Run) : (g.cycle run).1.runs = g.runs := by
  have hreset := runs_callAll .reset (g.threadName run.subgraph) run.order g
  unfold cycle
  dsimp only
  split
  · exact (runs_callAll _ _ _ _).trans hreset
  · exact hreset

omit [Behaviour σ ω] in
theorem run?_congr (h : g'.runs = g.runs) (s : SubgraphId) : g'.run? s = g.run? s := by
  rw [run?, h, run?]

/-- Threads that call nodes stay as they are, but for one that dies. -/
theorem run?_callRun (phase : Phase) (g : Graph σ ω)
    (h : run.subgraph ≠ s ∨ (visitAll? phase (g.threadName run.subgraph) run.order g).isSome) :
    (callRun phase g run).1.run? s = g.run? s := by
  have hall := run?_congr (runs_callAll phase (g.threadName run.subgraph) run.order g) s
  unfold callRun
  dsimp only
  split
  · exact hall
  · next hdead =>
    refine (run?_bury_of_ne _ (h.resolve_right fun halive ↦ ?_)).trans hall
    rw [visitAll?_eq, if_neg hdead] at halive
    cases halive

theorem run?_advance (g : Graph σ ω) (h : run.subgraph ≠ s ∨ (g.cycle run).2.2 = true) :
    (g.advance run).1.run? s = g.run? s := by
  have hcycle := run?_congr (g.runs_cycle run) s
  unfold advance
  split
  · rfl
  · split
    · rfl
    · dsimp only
      split
      · exact hcycle
      · next hdead => exact (run?_bury_of_ne _ (h.resolve_right hdead)).trans hcycle

theorem run?_iterate (g : Graph σ ω)
    (h : run.subgraph ≠ s ∨ ((g.caughtUp run).cycle run).2.2 = true) :
    (g.iterate run).1.run? s = g.run? s := by
  cases halive : run.alive with
  | false => rw [iterate, if_pos (by simp [halive])]
  | true =>
    rw [fst_iterate halive, run?_advance _ h]
    exact run?_congr (OnlyControls.caughtUp g run).runs s

omit [Behaviour σ ω] in
theorem run?_eachRun {act : Graph σ ω → Run → Graph σ ω × List (Report ω)} {runs : List Run}
    (h : ∀ run ∈ runs, ∀ g, (act g run).1.run? s = g.run? s) (g : Graph σ ω) :
    (eachRun act runs g).1.run? s = g.run? s := by
  induction runs generalizing g with
  | nil => rfl
  | cons run rest ih =>
    obtain ⟨hrun, hrest⟩ := List.forall_mem_cons.1 h
    exact (ih hrest _).trans (hrun g)

end Graph

end SignalFlow
