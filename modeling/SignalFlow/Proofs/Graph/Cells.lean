import SignalFlow.Demo.Node
import SignalFlow.Proofs.Graph.Ports
import SignalFlow.Proofs.Graph.Threads
import SignalFlow.Proofs.Topology.Edges

/-!
# Inputs read outputs of their own subgraph

The ordering edges of a graph are the pairs of nodes of which the second has an input that is
attached to an output of the first. Both are in the subgraph that holds the edge, and each
connected node is in one subgraph only. No node needs a lock, since while the graph runs an
output is reached by one thread at most.
-/

namespace SignalFlow.Graph

variable {σ ω : Type} {g g' : Graph σ ω} {t : Topology} {edges : List Edge}
  {source target : PortRef}

/-- Some edges are those between nodes of which the second reads an output of the first. -/
def Wired (g : Graph σ ω) (edges : List Edge) : Prop :=
  ∀ a b : NodeId, (a, b) ∈ edges ↔ ∃ output input, g.sourceOf ⟨b, input⟩ = some ⟨a, output⟩

/-- A connection attaches its input, which was free, and no other one. -/
theorem sourceOf_connectPorts (h : g.connectPorts source target = .ok g') :
    g.sourceOf target = none ∧
      ∀ ref, g'.sourceOf ref = if ref = target then some source else g.sourceOf ref := by
  obtain ⟨-, i, hi, -, rfl⟩ := connectPorts_eq_ok_iff.1 h
  obtain ⟨type, hfits, rfl⟩ := attached_eq_ok_iff_fits.1 hi
  exact ⟨sourceOf_of_port hfits.input, fun ref ↦ sourceOf_wire hfits.input⟩

namespace Wired

theorem congr (h : g.Wired edges) (hsource : g'.sourceOf = g.sourceOf) : g'.Wired edges := by
  intro a b
  rw [h a b, hsource]

theorem connectPorts (h : g.Wired edges) (hok : g.connectPorts source target = .ok g') :
    g'.Wired (edges ++ [(source.node, target.node)]) := by
  obtain ⟨hfree, hsource⟩ := sourceOf_connectPorts hok
  intro a b
  simp only [List.mem_append, List.mem_singleton, Prod.mk.injEq, h a b, hsource]
  constructor
  · rintro (⟨output, input, hold⟩ | ⟨rfl, rfl⟩)
    · refine ⟨output, input, ?_⟩
      rwa [if_neg]
      intro heq
      rw [heq, hfree] at hold
      cases hold
    · exact ⟨source.port, target.port, if_pos rfl⟩
  · rintro ⟨output, input, hnew⟩
    split at hnew
    · next htarget =>
      right
      rw [Option.some.inj hnew, ← htarget]
      exact ⟨rfl, rfl⟩
    · exact .inl ⟨output, input, hnew⟩

variable [Behaviour σ ω]

theorem withAdapters (h : g.Wired edges) (type : DataType) (capacity : Nat) :
    (g.withAdapters type capacity).Wired edges := by
  have hqueue : g.Works (g.addQueue type capacity).2 := .withQueues g _
  have hnew := (hqueue.trans (.push _ (Adapter.writerPorts type) (.writer ⟨g.queues.length⟩))).trans
    (.push _ (Adapter.readerPorts type) (.reader ⟨g.queues.length⟩))
  exact h.congr hnew.sourceOf

theorem connectQueuedPorts (h : g.Wired edges) {capacity : Nat} {queue : QueueId}
    (hok : g.connectQueuedPorts source target capacity = .ok (queue, g')) :
    g'.Wired (edges ++ (Connection.queued (g.bridgeOf source.node target.node queue)).edges) := by
  obtain ⟨-, -, -, -, type, g₁, g₂, hwriter, hreader, producer, consumer, -, -, rfl⟩ :=
    connectQueuedPorts_eq_ok hok
  have hboth := ((h.withAdapters type capacity).connectPorts hwriter).connectPorts hreader
  rw [List.append_assoc] at hboth
  exact hboth.congr rfl

theorem result (h : g.Wired t.edges) {attempt : Attempt} {c : Connection}
    (hok : attempt.result g = .ok (c, g')) : g'.Wired (Topology.edges (t ++ [c])) := by
  rw [Topology.edges_append, Topology.edges_singleton]
  rcases attempt.result_cases hok with
    ⟨source, target, rfl, hports⟩ | ⟨source, target, capacity, queue, rfl, hports⟩
  · exact h.connectPorts hports
  · exact h.connectQueuedPorts hports

end Wired

section Operations

variable [Behaviour σ ω]

/-- An operation that attaches and detaches inputs by connections only. -/
def Operation.RewiresNothing : Operation σ ω → Prop
  | .access _ ports _ => ∀ ps, sources (ports ps) = sources ps
  | _ => True

theorem sourceOf_iterate (g : Graph σ ω) (run : Run) :
    (g.iterate run).1.sourceOf = g.sourceOf := by
  unfold iterate
  split
  · rfl
  · exact (Works.advance _ run).sourceOf.trans (Works.deliverAll run _ _).sourceOf

theorem sourceOf_start (g : Graph σ ω) (spawner : Spawner) :
    (g.start spawner).1.sourceOf = g.sourceOf := by
  by_cases hrunning : g.isRunning = true
  · rw [start_of_running hrunning]
  · have hstopped : g.runs = none := by simpa [isRunning] using hrunning
    exact (works_start hstopped spawner).sourceOf

theorem Operation.sourceOf_apply (g : Graph σ ω) {operation : Operation σ ω}
    (h : operation.RewiresNothing) (hmade : operation.made g = []) :
    (operation.apply g).sourceOf = g.sourceOf := by
  cases operation with
  | connect attempt =>
    rcases Operation.connect_cases g attempt with ⟨-, hsame⟩ | ⟨c, hc, -⟩
    · rw [hsame]
    · rw [hmade] at hc
      cases hc
  | bind ref name storage validator =>
    rcases Operation.bind_cases g ref name storage validator with hsame | ⟨-, hbound⟩
    · rw [hsame]
    · rw [hbound]
      rfl
  | unbindAll =>
    rcases Operation.unbindAll_cases g with hsame | ⟨-, hunbound⟩
    · rw [hsame]
    · rw [hunbound]
      rfl
  | add ports state => exact (Works.push g ports (.custom state)).sourceOf
  | call phase node =>
    simp only [apply]
    split
    · exact (Works.call g phase none node).sourceOf
    · rfl
  | access node ports state =>
    simp only [apply]
    split
    · exact (Works.modifyNode g node fun slot _ ↦ h slot.node.ports).sourceOf
    · rfl
  | start spawner => exact sourceOf_start g spawner
  | iterate subgraph =>
    simp only [apply]
    cases g.run? subgraph with
    | none => rfl
    | some run => exact sourceOf_iterate g run
  | stop => exact g.works_stop.sourceOf
  | addQueue _ _ | changeQueue _ _ | post _ | postThrough _ _ => rfl

theorem Wired.apply (h : g.Wired t.edges) {operation : Operation σ ω}
    (hwires : operation.RewiresNothing) :
    (operation.apply g).Wired (Topology.edges (t ++ operation.made g)) := by
  rcases operation.apply_cases g with ⟨hmade, -⟩ | ⟨attempt, c, hmade, hok⟩
  · rw [hmade, List.append_nil]
    exact h.congr (Operation.sourceOf_apply g hwires hmade)
  · rw [hmade]
    exact h.result hok

end Operations

/-! ## Confinement -/

/-- A node is connected if it has an attached input, or an output that an input is attached to. -/
def IsConnected (g : Graph σ ω) (node : NodeId) : Prop :=
  ∃ source target : PortRef, g.sourceOf target = some source ∧
    (node = source.node ∨ node = target.node)

/-- A thread reaches an output if it calls its node, or a node that reads it. -/
def Reaches (g : Graph σ ω) (run : Run) (source : PortRef) : Prop :=
  source.node ∈ run.order ∨
    ∃ target : PortRef, target.node ∈ run.order ∧ g.sourceOf target = some source

/-- A graph whose subgraphs are closed under the attachment of inputs to outputs. -/
structure Confined (g : Graph σ ω) : Prop where
  /-- An input is in the subgraph of its source, which holds the edge between their nodes. -/
  attached : ∀ {source target}, g.sourceOf target = some source → ∃ s ∈ g.subgraphs,
    g.subgraphOf source.node = some s ∧ g.subgraphOf target.node = some s ∧
      (source.node, target.node) ∈ g.partition.edges s
  /-- Every edge is that of an input that is attached. -/
  edges : ∀ {s a b}, (a, b) ∈ g.partition.edges s →
    ∃ output input, g.sourceOf ⟨b, input⟩ = some ⟨a, output⟩
  /-- A connected node is listed once, by its subgraph. -/
  once : ∀ {node}, g.IsConnected node → ∃ s ∈ g.subgraphs, g.subgraphOf node = some s ∧
    (g.partition.nodes s).count node = 1 ∧
      ∀ i, node ∈ (g.partition.entry i).nodes → i = s.index
  /-- Nothing is left in an entry that was merged into another one. -/
  merged : ∀ {i}, (g.partition.entry i).parent ≠ i →
    (g.partition.entry i).nodes = [] ∧ (g.partition.entry i).edges = []
  /-- Nodes belong to surviving entries. -/
  membership : ∀ {node i}, g.partition.membership node = some i → ⟨i⟩ ∈ g.subgraphs
  /-- An output is reached by one thread at most. -/
  threads : ∀ {runs}, g.runs = some runs → ∀ run ∈ runs, ∀ run' ∈ runs, ∀ source,
    g.Reaches run source → g.Reaches run' source → run = run'

namespace Consistent

theorem exists_of_sourceOf (h : g.Consistent t) (hrecords : g.partition.Records t.edges)
    (hwired : g.Wired t.edges) (hsource : g.sourceOf target = some source) :
    ∃ s ∈ g.subgraphs, g.subgraphOf source.node = some s ∧ g.subgraphOf target.node = some s ∧
      (source.node, target.node) ∈ g.partition.edges s := by
  have hp := h.represents.wellFormed
  have hedge : (source.node, target.node) ∈ t.edges :=
    (hwired _ _).2 ⟨source.port, target.port, hsource⟩
  obtain ⟨s, hs⟩ := Option.ne_none_iff_exists'.1 (hrecords.placed hedge)
  have hsurvives := hp.of_survives hs
  have hheld : (source.node, target.node) ∈ g.partition.edges s := by
    rw [Partition.edges, Partition.survivor, Partition.root_of_survives hsurvives]
    exact hrecords.mem_edges.2 ⟨hedge, hp.of_eq_some_iff.1 hs⟩
  have hends := (h.represents.mem_edges_iff hrecords hsurvives).1 hheld
  exact ⟨s, hp.mem_roots.2 ⟨_, hs⟩, hs, hends.2.2, hheld⟩

theorem confined (h : g.Consistent t) (hrecords : g.partition.Records t.edges)
    (hwired : g.Wired t.edges) (hstaffed : g.Staffed) : g.Confined := by
  have hp := h.represents.wellFormed
  have hattached {source target : PortRef} (hsource : g.sourceOf target = some source) :=
    h.exists_of_sourceOf hrecords hwired hsource
  constructor
  case attached => exact hattached
  case edges =>
    intro s a b hedge
    exact (hwired a b).1 (hrecords.mem_edges.1 hedge).1
  case once =>
    intro node hnode
    obtain ⟨source, target, hsource, hnode⟩ := hnode
    obtain ⟨s, hs, hsourceOf, htargetOf, -⟩ := hattached hsource
    have hof : g.subgraphOf node = some s := by
      rcases hnode with rfl | rfl
      · exact hsourceOf
      · exact htargetOf
    have hmember := hp.of_eq_some_iff.1 hof
    refine ⟨s, hs, hof, ?_, fun i hi ↦ ?_⟩
    · rw [Partition.nodes, Partition.survivor, Partition.root_of_survives (hp.of_survives hof)]
      exact List.count_eq_one_of_mem (hp.nodup _) (hp.mem_nodes.2 hmember)
    · exact Option.some.inj ((hp.mem_nodes.1 hi).symm.trans hmember)
  case merged =>
    intro i hi
    constructor
    · apply List.eq_nil_iff_forall_not_mem.2
      intro node hnode
      exact hi (hp.membership_survives (hp.mem_nodes.1 hnode))
    · apply List.eq_nil_iff_forall_not_mem.2
      intro e he
      exact hi (hp.membership_survives (hrecords.mem_edges.1 he).2)
  case membership =>
    intro node i hi
    exact hp.mem_roots.2 ⟨node, hp.of_eq_some_iff.2 hi⟩
  case threads =>
    intro runs hruns run hrun run' hrun' source hreach hreach'
    have hsubgraph {run : Run} (hrun : run ∈ runs) (hreach : g.Reaches run source) :
        g.subgraphOf source.node = some run.subgraph := by
      rcases hreach with hnode | ⟨target, htarget, hsource⟩
      · exact (hstaffed.mem_order_iff hp hruns hrun).1 hnode
      · obtain ⟨s, -, hsourceOf, htargetOf, -⟩ := hattached hsource
        rw [(hstaffed.mem_order_iff hp hruns hrun).1 htarget] at htargetOf
        rw [hsourceOf, htargetOf]
    apply hstaffed.eq_of_subgraph_eq hruns hrun hrun'
    exact Option.some.inj ((hsubgraph hrun hreach).symm.trans (hsubgraph hrun' hreach'))

end Consistent

section Reached

variable [Behaviour σ ω]

theorem Consistent.records_apply (h : g.Consistent t) (hrecords : g.partition.Records t.edges)
    (operation : Operation σ ω) :
    (operation.apply g).partition.Records (Topology.edges (t ++ operation.made g)) := by
  rcases operation.apply_cases g with ⟨hmade, hsame⟩ | ⟨attempt, c, hmade, hok⟩
  · rw [hmade, List.append_nil]
    exact hrecords.sameTopology hsame.partition
  · have hextends := h.extends_result hok
    rw [hmade, hextends.partition]
    exact h.represents.records_extend hextends.allows hrecords

theorem records_after (options : Options) (operations : List (Operation σ ω)) :
    ((empty options).after operations).partition.Records
      ((empty options).accepted operations).edges :=
  (consistent_empty options).preserved (P := fun g t ↦ g.partition.Records t.edges)
    (fun operation _ _ _ hg hrecords ↦ hg.records_apply hrecords operation)
    Partition.records_empty

/-- No connection that was accepted is one of a node with itself. -/
theorem ne_of_mem_edges_accepted (options : Options) (operations : List (Operation σ ω)) :
    ∀ e ∈ ((empty options).accepted operations).edges, e.1 ≠ e.2 := by
  refine (consistent_empty options).preserved (P := fun _ t ↦ ∀ e ∈ t.edges, e.1 ≠ e.2)
    (fun operation _ g t hg hne ↦ ?_) nofun
  rcases operation.apply_cases g with ⟨hmade, -⟩ | ⟨attempt, c, hmade, hok⟩
  · rw [hmade, List.append_nil]
    exact hne
  · rw [hmade, Topology.edges_append, Topology.edges_singleton]
    intro e he
    rcases List.mem_append.1 he with he | he
    · exact hne e he
    · exact Partition.ne_of_allows (hg.extends_result hok).allows he

/-- If inputs are attached by connections only, the edges of these are those of the wiring. -/
theorem wired_after (options : Options) {operations : List (Operation σ ω)}
    (hwires : ∀ operation ∈ operations, operation.RewiresNothing) :
    ((empty options).after operations).Wired ((empty options).accepted operations).edges := by
  have hempty : (empty options : Graph σ ω).Wired (Topology.edges []) := by
    intro a b
    constructor
    · exact nofun
    · rintro ⟨output, input, hsource⟩
      cases hsource
  exact (consistent_empty options).preserved (P := fun g t ↦ g.Wired t.edges)
    (fun operation hmem _ _ _ hwired ↦ hwired.apply (hwires operation hmem)) hempty

/-- Whatever is done to a graph whose inputs are attached by connections only, direct wiring
stays within subgraphs. -/
theorem wiring_is_confined (options : Options) (operations : List (Operation σ ω))
    (hwires : ∀ operation ∈ operations, operation.RewiresNothing) :
    ((empty options).after operations).Confined :=
  (consistent_after options operations).confined (records_after options operations)
    (wired_after options hwires) (staffed_after options operations)

/-- Two stages in a row that run on one thread. -/
def gainLine : List (Operation Demo.Node Empty) :=
  .replicate 2 (.add (Demo.Gain.ports (Numeric.Binary.zero Numeric.binary64 false)) .gain) ++
    [.connect (.connect ⟨0⟩ ⟨1⟩), .access ⟨0⟩ (·.map Port.clear) id, .start .willing]

/-- The input of the second stage is attached to the output of the first, which is reached by
the only thread. -/
theorem gainLine_confined :
    (∀ operation ∈ gainLine, operation.RewiresNothing) ∧
      ((empty .standard).after gainLine).sourceOf ⟨⟨1⟩, 0⟩ = some ⟨⟨0⟩, 1⟩ ∧
      ((empty .standard).after gainLine).duties = some [(⟨0⟩, [⟨0⟩, ⟨1⟩])] ∧
      ((empty .standard).after gainLine).Confined := by
  have hwires : ∀ operation ∈ gainLine, operation.RewiresNothing := by
    intro operation hmem
    simp only [gainLine, List.replicate, List.cons_append, List.nil_append, List.mem_cons,
      List.not_mem_nil, or_false] at hmem
    rcases hmem with rfl | rfl | rfl | rfl | rfl
    all_goals first | trivial | exact sources_map_clear
  exact ⟨hwires, by decide, by decide, wiring_is_confined .standard gainLine hwires⟩

end Reached

end SignalFlow.Graph
