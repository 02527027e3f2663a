import SignalFlow.Demo.Node
import SignalFlow.Proofs.Graph.Bridging
import SignalFlow.Proofs.Graph.Cells
import SignalFlow.Proofs.Topology.Links

/-!
# The order of building does not matter

Links between ports that fit, each with an input of its own, are accepted one after the other
exactly if the topology with all of them is lawful. Since this does not depend on their order,
links that are accepted in one order are accepted in every other, and the graphs differ in the
numbers of subgraphs, adapters and queues only.
-/

namespace SignalFlow

namespace Graph

variable {σ ω : Type} {g g' : Graph σ ω} {t : Topology} {link : Link} {links : List Link}
  {source target : PortRef} {type : DataType}

/-- Whether the ports of a link can be connected. -/
def Accommodates (g : Graph σ ω) (link : Link) : Prop :=
  ∃ type, g.Fits link.source link.target type

theorem Fits.within (h : g.Fits link.source link.target type) : link.Within g.nodeCount := by
  obtain ⟨value, hsource⟩ := h.output
  exact ⟨lt_of_port hsource, lt_of_port h.input⟩

/-- What fits goes on to fit if both ports stay as they are. -/
theorem Fits.congr (h : g.Fits source target type)
    (hport : ∀ {p}, g.port source = .ok p → g'.port source = .ok p)
    (hport' : ∀ {p}, g.port target = .ok p → g'.port target = .ok p) :
    g'.Fits source target type where
  ne := h.ne
  output := h.output.imp fun _ ↦ hport
  input := hport' h.input

/-- The source of a connection is not the target of another one. -/
theorem Fits.source_ne (h : g.Fits source target type) {other : Link} {type' : DataType}
    (hother : g.Fits other.source other.target type') : source ≠ other.target := by
  obtain ⟨value, hsource⟩ := h.output
  intro heq
  rw [heq, hother.input] at hsource
  cases hsource

/-- A graph that represents a topology and records its edges. -/
structure Charted (g : Graph σ ω) (t : Topology) : Prop extends Consistent g t where
  records : g.partition.Records t.edges

theorem Charted.extended (h : g.Charted t) {c : Connection} (hg : g.Extends c g') :
    g'.Charted (t ++ [c]) where
  toConsistent := h.connected hg
  records := by
    rw [hg.partition]
    exact h.represents.records_extend hg.allows h.records

/-- Connections that were accepted keep their names if their numbers do. -/
theorem Consistent.connection_eq (h : g.Consistent t) {r : Renaming}
    (hr : r.Fixes (· < g.nodeCount) (· < g.queues.length)) {c : Connection} (hc : c ∈ t) :
    r.connection c = c := by
  have hends : ∀ e ∈ c.edges, r.nodes e.1 = e.1 ∧ r.nodes e.2 = e.2 := by
    intro e he
    have hknown := h.known e (List.mem_flatMap.2 ⟨c, hc, he⟩)
    exact ⟨hr.nodes _ hknown.1, hr.nodes _ hknown.2⟩
  cases c with
  | direct source target =>
    obtain ⟨hsource, htarget⟩ := hends (source, target) List.mem_cons_self
    simp only [Renaming.connection, hsource, htarget]
  | queued b =>
    obtain ⟨hsource, hwriter⟩ := hends (b.source, b.writer) List.mem_cons_self
    obtain ⟨hreader, htarget⟩ := hends (b.reader, b.target)
      (List.mem_cons_of_mem _ List.mem_cons_self)
    have hqueue := hr.queues _ (h.queue_lt b (List.mem_filterMap.2 ⟨_, hc, rfl⟩))
    simp only [Renaming.connection, Renaming.bridge, hsource, hwriter, hreader, htarget, hqueue]

section Build

variable [Behaviour σ ω]

def connectBy (g : Graph σ ω) (link : Link) : Except GraphError (Graph σ ω) :=
  match link.capacity? with
  | none => g.connectPorts link.source link.target
  | some capacity => (g.connectQueuedPorts link.source link.target capacity).map (·.2)

def build (g : Graph σ ω) (links : List Link) : Except GraphError (Graph σ ω) :=
  links.foldlM connectBy g

/-- The graph with one more link, between ports of the given type. -/
def linked (g : Graph σ ω) (link : Link) (type : DataType) : Graph σ ω :=
  match link.capacity? with
  | none => g.joined link.source link.target type
  | some capacity => g.bridged link.source link.target type capacity

/-- The connection that a link becomes next. -/
def nextOf (g : Graph σ ω) (link : Link) : Connection :=
  link.connection g.nodeCount g.queues.length

theorem build_cons_eq_ok_iff : g.build (link :: links) = .ok g' ↔
    ∃ next, g.connectBy link = .ok next ∧ next.build links = .ok g' := by
  rw [build, List.foldlM_cons, bind_eq_ok_iff]
  rfl

/-- A link is made if its ports fit and the topology stays lawful. -/
theorem Consistent.connectBy_eq_ok_iff (h : g.Consistent t) :
    g.connectBy link = .ok g' ↔ g.isRunning = false ∧ Topology.Lawful (t ++ [g.nextOf link]) ∧
      ∃ type, g.Fits link.source link.target type ∧ g' = g.linked link type := by
  unfold connectBy nextOf Link.connection linked
  rcases link.capacity? with _ | capacity
  · have hmay := h.represents.mayJoin_iff_lawful h.lawful (a := link.source.node)
      (b := link.target.node)
    simp only [connectPorts_eq_ok_iff_fits h.represents.wellFormed, hmay]
  · have hmay {type : DataType} (hfits : g.Fits link.source link.target type) :=
      h.represents.mayBridge_iff_lawful h.lawful (h.fresh_adapters hfits ⟨g.queues.length⟩)
    simp only [map_eq_ok_iff, Prod.exists, exists_eq_right, h.connectQueuedPorts_eq_ok_iff,
      checkQueue_eq_ok_iff]
    constructor
    · rintro ⟨queue, hstopped, ⟨-, hqueue⟩, -, type, hfits, hg'⟩
      exact ⟨hstopped, (hmay hfits).1 hqueue, type, hfits, hg'⟩
    · rintro ⟨hstopped, hlawful, type, hfits, hg'⟩
      exact ⟨_, hstopped, ⟨hfits.ne, (hmay hfits).2 hlawful⟩, rfl, type, hfits, hg'⟩

theorem counts_linked (g : Graph σ ω) (link : Link) (type : DataType) :
    (g.linked link type).nodeCount = g.nodeCount + link.newNodes ∧
      (g.linked link type).queues.length = g.queues.length + link.newQueues := by
  have hwire (g : Graph σ ω) (ref : PortRef) (i : Input PortRef) :
      (g.wire ref i).nodeCount = g.nodeCount := List.length_modify ..
  unfold linked Link.newNodes Link.newQueues
  rcases link.capacity? with _ | capacity
  · exact ⟨hwire .., rfl⟩
  · have hnodes : (g.bridged link.source link.target type capacity).nodeCount =
        (g.withAdapters type capacity).nodeCount := (hwire ..).trans (hwire ..)
    exact ⟨hnodes.trans (nodeCount_withAdapters g type capacity), List.length_append ..⟩

theorem port_linked {ref : PortRef} {p : Port PortRef ω} (hne : ref ≠ link.target)
    (h : g.port ref = .ok p) : (g.linked link type).port ref = .ok p := by
  unfold linked
  rcases link.capacity? with _ | capacity
  · exact port_wire hne h
  · have hwriter : ref ≠ ⟨⟨g.nodeCount⟩, 0⟩ := by
      intro heq
      have hlt := lt_of_port h
      rw [heq] at hlt
      exact absurd hlt (lt_irrefl _)
    exact port_wire hne (port_wire hwriter (port_withAdapters h))

theorem Accommodates.linked {other : Link} (h : g.Accommodates other)
    (hlink : g.Fits link.source link.target type) (hne : other.target ≠ link.target) :
    (g.linked link type).Accommodates other := by
  obtain ⟨type', hfits⟩ := h
  exact ⟨type', hfits.congr (port_linked (hfits.source_ne hlink)) (port_linked hne)⟩

theorem isRunning_linked (g : Graph σ ω) (link : Link) (type : DataType) :
    (g.linked link type).isRunning = g.isRunning := by
  unfold Graph.linked
  cases link.capacity? <;> rfl

namespace Charted

theorem connectBy (h : g.Charted t) (hok : g.connectBy link = .ok g') :
    g'.Charted (t ++ [g.nextOf link]) := by
  rcases hcapacity : link.capacity? with _ | capacity
  · simp only [Graph.connectBy, hcapacity] at hok
    simp only [nextOf, Link.connection, hcapacity]
    exact h.extended (extends_connectPorts h.represents.wellFormed hok)
  · simp only [Graph.connectBy, hcapacity] at hok
    obtain ⟨⟨queue, g''⟩, hports, rfl⟩ := map_eq_ok_iff.1 hok
    obtain ⟨-, -, -, rfl, -⟩ := connectQueuedPorts_eq_ok hports
    simp only [nextOf, Link.connection, hcapacity]
    exact h.extended (extends_connectQueuedPorts h.index_lt hports)

/-- Links that are made one after the other are the next connections of the topology. -/
theorem build (h : g.Charted t) (hok : g.build links = .ok g') :
    g'.Charted (t ++ Link.connections g.nodeCount g.queues.length links) := by
  induction links generalizing g t with
  | nil =>
    cases hok
    rwa [Link.connections, List.append_nil]
  | cons link rest ih =>
    obtain ⟨next, hnext, hrest⟩ := build_cons_eq_ok_iff.1 hok
    obtain ⟨-, -, type, -, rfl⟩ := h.connectBy_eq_ok_iff.1 hnext
    have hbuilt := ih (h.connectBy hnext) hrest
    rwa [(counts_linked g link type).1, (counts_linked g link type).2, List.append_assoc] at hbuilt

/-- Links that fit are made one after the other if the topology with all of them is lawful. -/
theorem exists_build (h : g.Charted t) (hstopped : links ≠ [] → g.isRunning = false)
    (hfits : ∀ link ∈ links, g.Accommodates link) (htargets : (links.map Link.target).Nodup)
    (hlawful : Topology.Lawful (t ++ Link.connections g.nodeCount g.queues.length links)) :
    ∃ g', g.build links = .ok g' := by
  induction links generalizing g t with
  | nil => exact ⟨g, rfl⟩
  | cons link rest ih =>
    obtain ⟨type, hlink⟩ := hfits link List.mem_cons_self
    obtain ⟨htarget, hnodup⟩ := List.nodup_cons.1 htargets
    have hsplit : t ++ Link.connections g.nodeCount g.queues.length (link :: rest) =
        t ++ [g.nextOf link] ++ Link.connections (g.linked link type).nodeCount
          (g.linked link type).queues.length rest := by
      rw [(counts_linked g link type).1, (counts_linked g link type).2, List.append_assoc]
      rfl
    rw [hsplit] at hlawful
    have hnext : g.connectBy link = .ok (g.linked link type) :=
      h.connectBy_eq_ok_iff.2
        ⟨hstopped (List.cons_ne_nil _ _), hlawful.of_append, type, hlink, rfl⟩
    have hrest : ∀ later ∈ rest, (g.linked link type).Accommodates later := by
      intro later hmem
      apply (hfits later (List.mem_cons_of_mem _ hmem)).linked hlink
      exact fun heq ↦ htarget (heq ▸ List.mem_map_of_mem hmem)
    have hstill : rest ≠ [] → (g.linked link type).isRunning = false := fun _ ↦
      (isRunning_linked g link type).trans (hstopped (List.cons_ne_nil _ _))
    obtain ⟨g', hg'⟩ := ih (h.connectBy hnext) hstill hrest hnodup hlawful
    exact ⟨g', build_cons_eq_ok_iff.2 ⟨_, hnext, hg'⟩⟩

theorem isRunning_of_build (h : g.Charted t) (hok : g.build links = .ok g') (hlinks : links ≠ []) :
    g.isRunning = false := by
  obtain ⟨link, rest, rfl⟩ := List.exists_cons_of_ne_nil hlinks
  obtain ⟨next, hnext, -⟩ := build_cons_eq_ok_iff.1 hok
  exact (h.connectBy_eq_ok_iff.1 hnext).1

end Charted

/-- Two graphs that were built on the same one, and differ only in the numbers of what is new and
in those of the subgraphs. -/
structure BuiltAlike (base : Graph σ ω) (r : Renaming) (rename : SubgraphId → SubgraphId)
    (g g' : Graph σ ω) : Prop where
  fixes : r.Fixes (· < base.nodeCount) (· < base.queues.length)
  alike : g.partition.Alike r rename g'.partition
  /-- The nodes that were there are grouped in the same way. -/
  grouping : ∀ node : NodeId, node.index < base.nodeCount →
    g'.subgraphOf node = (g.subgraphOf node).map rename

theorem Charted.exists_build_of_perm (h : g.Charted t) {first second : List Link}
    (hfits : ∀ link ∈ first, g.Accommodates link) (htargets : (first.map Link.target).Nodup)
    (hperm : first.Perm second) (hfirst : g.build first = .ok g') :
    ∃ g'' r rename, g.build second = .ok g'' ∧ g.BuiltAlike r rename g' g'' := by
  have hbuilt := h.build hfirst
  have hwithin : ∀ link ∈ first, link.Within g.nodeCount := by
    intro link hmem
    obtain ⟨type, hlink⟩ := hfits link hmem
    exact hlink.within
  obtain ⟨r, hfixes, hlinks⟩ := Link.exists_renamedBy hperm hwithin (k := g.queues.length)
  have hrenamed := hlinks.append_left fun c hc ↦ h.connection_eq hfixes hc
  have hstopped : second ≠ [] → g.isRunning = false := by
    intro hsecond
    apply h.isRunning_of_build hfirst
    rintro rfl
    exact hsecond hperm.nil_eq.symm
  have hfits' : ∀ link ∈ second, g.Accommodates link := fun link hmem ↦
    hfits link (hperm.mem_iff.2 hmem)
  have htargets' : (second.map Link.target).Nodup :=
    (hperm.map Link.target).nodup_iff.1 htargets
  obtain ⟨g'', hsecond⟩ :=
    h.exists_build hstopped hfits' htargets' (hrenamed.lawful hbuilt.lawful)
  have hbuilt' := h.build hsecond
  obtain ⟨rename, halike⟩ := hbuilt.represents.exists_alike hbuilt'.represents hbuilt.records
    hbuilt'.records hrenamed
  refine ⟨g'', r, rename, hsecond, hfixes, halike, fun node hnode ↦ ?_⟩
  have hof := halike.of_nodes node
  rwa [hfixes.nodes node hnode] at hof

/-- Links between ports of nodes that are there, which fit and have different inputs, are accepted
in every order if they are in one, and the graphs are alike. -/
theorem building_order_is_free (options : Options) (operations : List (Operation σ ω))
    {first second : List Link} {built : Graph σ ω}
    (hfits : ∀ link ∈ first, ((empty options).after operations).Accommodates link)
    (htargets : (first.map Link.target).Nodup) (hperm : first.Perm second)
    (hfirst : ((empty options).after operations).build first = .ok built) :
    ∃ built' r rename, ((empty options).after operations).build second = .ok built' ∧
      ((empty options).after operations).BuiltAlike r rename built built' := by
  have hcharted : ((empty options).after operations).Charted
      ((empty options).accepted operations) :=
    ⟨consistent_after options operations, records_after options operations⟩
  exact hcharted.exists_build_of_perm hfits htargets hperm hfirst

/-- Four stages in no subgraph. -/
def gainQuartet : List (Operation Demo.Node Empty) :=
  .replicate 4 (.add (Demo.Gain.ports (Numeric.Binary.zero Numeric.binary64 false)) .gain)

/-- Links of the first stage to all others, of which the last is direct. -/
def gainFan : List Link :=
  [⟨⟨⟨0⟩, 1⟩, ⟨⟨1⟩, 0⟩, some 1⟩, ⟨⟨⟨0⟩, 1⟩, ⟨⟨2⟩, 0⟩, some 1⟩, ⟨⟨⟨0⟩, 1⟩, ⟨⟨3⟩, 0⟩, none⟩]

/-- The links of the fan are accepted from the last to the first as well. -/
theorem gainFan_reversed : ∃ built built' r rename,
    ((empty .standard).after gainQuartet).build gainFan = .ok built ∧
      ((empty .standard).after gainQuartet).build gainFan.reverse = .ok built' ∧
      ((empty .standard).after gainQuartet).BuiltAlike r rename built built' := by
  have hfits : ∀ link ∈ gainFan, ((empty .standard).after gainQuartet).Accommodates link := by
    intro link hmem
    simp only [gainFan, List.mem_cons, List.not_mem_nil, or_false] at hmem
    rcases hmem with rfl | rfl | rfl
    all_goals exact ⟨.block, by decide, ⟨none, rfl⟩, rfl⟩
  obtain ⟨built', r, rename, hsecond, halike⟩ := building_order_is_free .standard gainQuartet hfits
    (by decide) gainFan.reverse_perm.symm rfl
  exact ⟨_, built', r, rename, rfl, hsecond, halike⟩

end Build

end Graph

end SignalFlow
