import SignalFlow.Proofs.Graph.Delivering
import SignalFlow.Proofs.Topology.Representation

/-!
# What operations do to waiting batches

A connection may merge a subgraph into another one, a posting puts batches behind those that wait,
an iteration takes what waits for its subgraph, and a start forwards what waits for merged
entries. No other operation moves a batch. Handles that were taken at any time go on to lead to
entries that are part of the subgraphs of their nodes, so that all deliveries wait for such
entries.
-/

namespace SignalFlow

open Control

namespace Partition

variable {p : Partition Batch} {t : Topology} {c : Connection}

/-- A connection leaves what waits for a node waiting for it. -/
theorem Shifts.extend (h : p.Addressed) (ht : p.Represents t) (hc : p.Allows c) :
    p.Shifts (p.extend c) := by
  cases c with
  | direct source target => exact join h ht.wellFormed hc.1
  | queued b =>
    have hwriter := join h ht.wellFormed hc.1.source_ne_writer
    have hreader := join hwriter.addressed (ht.join_writer hc.1).wellFormed
      hc.1.target_ne_reader.symm
    have hboth := hwriter.trans hreader
    unfold Partition.extend Partition.bridge
    simp only
    split
    · next producer consumer _ _ =>
      have hforest := (ht.join_reader hc.1).wellFormed.toForest
      exact hboth.trans (bridged hboth.addressed hforest producer consumer b.queue)
    · exact hboth

end Partition

/-- What an operation does to waiting batches. -/
inductive Motion where
  | rest
  | connect (c : Connection)
  | post (handle : Handle) (updates : Updates)
  | drain (subgraph : SubgraphId)
  | forward

namespace Motion

variable {p : Partition Batch} {t : Topology} {motion : Motion}

def apply (p : Partition Batch) : Motion → Partition Batch
  | .rest => p
  | .connect c => p.extend c
  | .post handle updates => p.posted handle updates
  | .drain s => (p.receive s).2
  | .forward => p.forwardAll

/-- A motion that comes to pass: the rules let the connection through, the routes of the posting
lead to the subgraphs of their nodes, and the subgraph that is drained was not merged. -/
def Legal (p : Partition Batch) : Motion → Prop
  | .connect c => p.Allows c
  | .post handle _ => p.Leads handle
  | .drain s => p.Survives s.index
  | .rest | .forward => True

theorem follows (h : p.Addressed) (ht : p.Represents t) (hlegal : motion.Legal p) :
    p.Follows (motion.apply p) := by
  have hforest := ht.wellFormed.toForest
  cases motion with
  | rest => exact fun _ _ hnode ↦ hnode
  | connect c => exact (Partition.Shifts.extend h ht hlegal).follows
  | post handle updates => exact (p.sameTopology_posted handle updates).follows hforest
  | drain s => exact (Partition.SameTopology.receive p s).follows hforest
  | forward => exact (Partition.SameTopology.forwardAll p).follows hforest

theorem length_le (h : p.Addressed) (ht : p.Represents t) (hlegal : motion.Legal p) :
    p.entries.length ≤ (motion.apply p).entries.length := by
  cases motion with
  | rest => exact le_rfl
  | connect c => exact (Partition.Shifts.extend h ht hlegal).length_le
  | post handle updates => exact (p.sameTopology_posted handle updates).length.ge
  | drain s => exact (Partition.SameTopology.receive p s).length.ge
  | forward => exact (Partition.SameTopology.forwardAll p).length.ge

theorem addressed (h : p.Addressed) (ht : p.Represents t) (hlegal : motion.Legal p) :
    (motion.apply p).Addressed := by
  have hp := ht.wellFormed
  cases motion with
  | rest => exact h
  | connect c => exact (Partition.Shifts.extend h ht hlegal).addressed
  | post handle updates =>
    exact Partition.Leads.addressed_posted hlegal hp.toForest h updates
  | drain s => exact h.receive hp.toForest s
  | forward => exact h.forwardAll hp

end Motion

namespace Graph

variable {σ ω : Type} [Behaviour σ ω] {g : Graph σ ω} {t : Topology} {taken : List Handle}
  {operation : Operation σ ω}

/-- The motion of waiting batches in an operation. -/
def Operation.motion (g : Graph σ ω) : Operation σ ω → Motion
  | .connect attempt =>
    match attempt.result g with
    | .ok (c, _) => .connect c
    | .error _ => .rest
  | .post updates => .post g.handle updates
  | .postThrough handle updates => .post handle updates
  | .iterate s => if (g.run? s).any (·.alive) then .drain s else .rest
  | .start _ => if g.isRunning then .rest else .forward
  | _ => .rest

theorem partition_start (g : Graph σ ω) (spawner : Spawner) : (g.start spawner).1.partition =
    if g.isRunning then g.partition else g.partition.forwardAll := by
  split
  · next hrunning => rw [start_of_running hrunning]
  · next hstopped =>
    have hstopped : g.runs = none := by simpa [isRunning] using hstopped
    exact (works_start hstopped spawner).partition

theorem partition_iterate (g : Graph σ ω) (run : Run) : (g.iterate run).1.partition =
    if run.alive then (g.partition.receive run.subgraph).2 else g.partition := by
  split
  · next halive => exact (works_iterate halive).partition
  · next hdead =>
    rw [iterate, if_pos (by simpa using hdead)]

/-- Waiting batches move as the motion says, and nothing else happens to subgraphs. -/
theorem Consistent.partition_apply (hg : g.Consistent t) (operation : Operation σ ω) :
    (operation.apply g).partition = (operation.motion g).apply g.partition := by
  cases operation with
  | connect attempt =>
    rcases hok : attempt.result g with e | ⟨c, g'⟩
    · simp only [Operation.apply, Operation.motion, hok]
      rfl
    · simp only [Operation.apply, Operation.motion, hok]
      exact (hg.extends_result hok).partition
  | bind ref name storage validator =>
    rcases Operation.bind_cases g ref name storage validator with hsame | ⟨-, hbound⟩
    · rw [hsame]
      rfl
    · rw [hbound]
      rfl
  | unbindAll =>
    rcases Operation.unbindAll_cases g with hsame | ⟨-, hunbound⟩
    · rw [hsame]
      rfl
    · rw [hunbound]
      rfl
  | call phase node =>
    simp only [Operation.apply]
    split
    · exact (Works.call g phase none node).partition
    · rfl
  | access node ports state =>
    simp only [Operation.apply]
    split <;> rfl
  | start spawner =>
    change (g.start spawner).1.partition =
      (if g.isRunning then Motion.rest else .forward).apply g.partition
    rw [partition_start]
    split <;> rfl
  | iterate s =>
    simp only [Operation.apply, Operation.motion]
    cases hrun : g.run? s with
    | none => rfl
    | some run =>
      obtain ⟨rfl, -⟩ := run?_eq_some hrun
      rw [Option.elim_some, partition_iterate, Option.any_some]
      split <;> rfl
  | stop => exact g.works_stop.partition
  | add _ _ | addQueue _ _ | changeQueue _ _ | post _ | postThrough _ _ => rfl

/-- Whether operations post only by handles that are given, or were taken from the graph at some
time before. -/
def TakesHandles (g : Graph σ ω) (taken : List Handle) : List (Operation σ ω) → Prop
  | [] => True
  | operation :: rest =>
    (∀ handle updates, operation = .postThrough handle updates → handle ∈ g.handle :: taken) ∧
      (operation.apply g).TakesHandles (g.handle :: taken) rest

def tallied {α : Type} (tally : Partition Batch → α → Motion → α) (g : Graph σ ω) (a : α) :
    List (Operation σ ω) → α
  | [] => a
  | operation :: rest =>
    (operation.apply g).tallied tally (tally g.partition a (operation.motion g)) rest

/-- A graph that handles find their way in, and in which all that waits can be found. -/
structure Postal (g : Graph σ ω) (taken : List Handle) : Prop where
  addressed : g.partition.Addressed
  leads : ∀ handle ∈ taken, g.partition.Leads handle

omit [Behaviour σ ω] in
theorem postal_empty (options : Options) : (empty options : Graph σ ω).Postal [] where
  addressed := Partition.routed_empty.addressed
  leads := nofun

namespace Postal

omit [Behaviour σ ω] in
/-- A handle that is taken now leads where the older ones lead. -/
theorem leads_taken (h : g.Postal taken) (hg : g.Consistent t) {handle : Handle}
    (hhandle : handle ∈ g.handle :: taken) : g.partition.Leads handle := by
  rcases List.mem_cons.1 hhandle with rfl | hhandle
  · exact leads_handle hg.represents.wellFormed
  · exact h.leads handle hhandle

theorem legal (h : g.Postal taken) (hg : g.Consistent t) (hstaffed : g.Staffed)
    (htaken : ∀ handle updates, operation = .postThrough handle updates →
      handle ∈ g.handle :: taken) : (operation.motion g).Legal g.partition := by
  cases operation with
  | connect attempt =>
    simp only [Operation.motion]
    rcases hok : attempt.result g with e | ⟨c, g'⟩
    · trivial
    · exact (hg.extends_result hok).allows
  | post updates => exact leads_handle hg.represents.wellFormed
  | postThrough handle updates => exact h.leads_taken hg (htaken handle updates rfl)
  | iterate s =>
    simp only [Operation.motion]
    rcases hrun : g.run? s with _ | run
    · trivial
    · obtain ⟨rfl, runs, hruns, hmem⟩ := run?_eq_some hrun
      rw [Option.any_some]
      split
      · exact hstaffed.survives hg.represents.wellFormed hruns hmem
      · trivial
  | start spawner =>
    simp only [Operation.motion]
    split <;> trivial
  | _ => trivial

theorem apply (h : g.Postal taken) (hg : g.Consistent t) (hstaffed : g.Staffed)
    (htaken : ∀ handle updates, operation = .postThrough handle updates →
      handle ∈ g.handle :: taken) : (operation.apply g).Postal (g.handle :: taken) := by
  have hlegal := h.legal hg hstaffed htaken
  constructor
  case addressed =>
    rw [hg.partition_apply]
    exact Motion.addressed h.addressed hg.represents hlegal
  case leads =>
    intro handle hhandle
    rw [hg.partition_apply]
    exact (h.leads_taken hg hhandle).mono (Motion.follows h.addressed hg.represents hlegal)
      (Motion.length_le h.addressed hg.represents hlegal)

/-- What motions preserve along with a tally of them is preserved by operations. -/
theorem after {α : Type} {tally : Partition Batch → α → Motion → α}
    {P : Partition Batch → α → Prop}
    (hstep : ∀ {p t motion a}, p.Addressed → p.Represents t → Motion.Legal p motion → P p a →
      P (motion.apply p) (tally p a motion))
    (h : g.Postal taken) (hg : g.Consistent t) (hstaffed : g.Staffed)
    {operations : List (Operation σ ω)} (htaken : g.TakesHandles taken operations) {a : α}
    (ha : P g.partition a) :
    ∃ taken', (g.after operations).Postal taken' ∧
      P (g.after operations).partition (g.tallied tally a operations) := by
  induction operations generalizing g t taken a with
  | nil => exact ⟨taken, h, ha⟩
  | cons operation rest ih =>
    have hmoved := hstep h.addressed hg.represents (h.legal hg hstaffed htaken.1) ha
    rw [← hg.partition_apply] at hmoved
    exact ih (h.apply hg hstaffed htaken.1) (hg.apply operation) (hstaffed.apply hg operation)
      htaken.2 hmoved

end Postal

end Graph

end SignalFlow
