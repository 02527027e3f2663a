import SignalFlow.Proofs.Graph.Bridging

/-!
# Changes in place

A connection may also be made in place, by a row of changes to one graph. What was changed before
a refusal would stay then. It does not come to that: all checks that can refuse a connection
stand before its first change, and no later step is refused. So a connection in place has the
same result as one that gives a new graph, and a refused one leaves the graph as it was.
-/

namespace SignalFlow.Graph

open Control

variable {σ ω α β : Type} {g g' : Graph σ ω} {t : Topology} {source target : PortRef}

/-- A program that changes a graph in place. What it has changed stays if it is refused. -/
abbrev InPlace (σ ω α : Type) := ExceptT GraphError (StateM (Graph σ ω)) α

namespace InPlace

/-- What comes of a program, and the graph behind. -/
def exec (program : InPlace σ ω α) (g : Graph σ ω) : Except GraphError α × Graph σ ω :=
  program.run.run g

def look (query : Graph σ ω → Except GraphError α) : InPlace σ ω α := do
  match query (← get) with
  | .ok a => return a
  | .error e => throw e

def change (f : Graph σ ω → α × Graph σ ω) : InPlace σ ω α :=
  modifyGet f

def changePartition (f : Partition Batch → α × Partition Batch) : InPlace σ ω α :=
  change fun g ↦ ((f g.partition).1, { g with partition := (f g.partition).2 })

def subgraphsOf (a b : NodeId) : InPlace σ ω (Option SubgraphId × Option SubgraphId) :=
  look fun g ↦ .ok (g.subgraphOf a, g.subgraphOf b)

/-- An output that was found before. -/
def output (ref : PortRef) : InPlace σ ω Output := do
  match ← look (·.port ref) with
  | .output o => return o
  | _ => throw (.port ref (.noSuchPort ref.port))

/-- Attaches an input that was found before. -/
def attach (source : PortRef) (o : Output) (target : PortRef) : InPlace σ ω Unit := do
  match ← look (·.port target) with
  | .input i =>
    match i.attach source o.type with
    | .ok i => change fun g ↦ ((), g.wire target i)
    | .error fault => throw (.port target fault)
  | _ => throw (.port target (.noSuchPort target.port))

/-- Puts two nodes with the given subgraphs into one. -/
def meet (source target : NodeId) :
    Option SubgraphId × Option SubgraphId → InPlace σ ω SubgraphId
  | (some a, some b) => changePartition (·.union a b)
  | (some a, none) => do
    changePartition fun p ↦ ((), p.assign target a)
    return a
  | (none, some b) => do
    changePartition fun p ↦ ((), p.assign source b)
    return b
  | (none, none) => do
    let id ← changePartition (·.create)
    changePartition fun p ↦ ((), p.assign source id)
    changePartition fun p ↦ ((), p.assign target id)
    return id

def connectPorts (source target : PortRef) : InPlace σ ω Unit := do
  look (·.ensureStopped)
  let _ ← look (·.attached source target)
  let subgraphs ← subgraphsOf source.node target.node
  look (·.checkJoin source.node target.node)
  let o ← output source
  attach source o target
  let id ← meet source.node target.node subgraphs
  changePartition fun p ↦ ((), p.addEdge id (source.node, target.node))

/-- Connects the first output of a node to the first input of another. -/
def connect (source target : NodeId) : InPlace σ ω Unit := do
  look (·.ensureStopped)
  let output ← look (·.defaultPort source .output)
  let input ← look (·.defaultPort target .input)
  connectPorts output input

/-- The checks of a connection by a queue, which give the type of the queue. -/
def checkBridge (source target : PortRef) : InPlace σ ω DataType := do
  look (·.ensureStopped)
  look fun g ↦ (g.checkQueue source.node target.node).mapError .badTopology
  let _ ← look (·.attached source target)
  let o ← output source
  return o.type

/-- Connects the writer and the reader of a queue, and records where the queue leads. -/
def connectAdapters (source target : PortRef) (queue : QueueId) (writer reader : NodeId) :
    InPlace σ ω QueueId := do
  connectPorts source ⟨writer, 0⟩
  connectPorts ⟨reader, 0⟩ target
  match ← subgraphsOf source.node target.node with
  | (some producer, some consumer) =>
    changePartition fun p ↦ ((), p.setInbound consumer queue)
    changePartition fun p ↦ ((), p.link producer consumer)
    return queue
  | _ => throw (.nodeUnavailable target.node)

section Queued

variable [Behaviour σ ω]

/-- Puts a queue in with its writer and its reader, and connects them. -/
def placeBridge (source target : PortRef) (type : DataType) (capacity : Nat) :
    InPlace σ ω QueueId := do
  let queue ← change (·.addQueue type capacity)
  let writer ← change (·.push (Adapter.writerPorts type) (.writer queue))
  let reader ← change (·.push (Adapter.readerPorts type) (.reader queue))
  connectAdapters source target queue writer reader

/-- Connects an output to an input by a queue. -/
def connectQueuedPorts (source target : PortRef) (capacity : Nat) : InPlace σ ω QueueId := do
  let type ← checkBridge source target
  placeBridge source target type capacity

/-- Connects the first output of a node to the first input of another by a queue. -/
def connectQueuedWithCapacity (source target : NodeId) (capacity : Nat) :
    InPlace σ ω QueueId := do
  look (·.ensureStopped)
  let output ← look (·.defaultPort source .output)
  let input ← look (·.defaultPort target .input)
  connectQueuedPorts output input capacity

/-- Connects two nodes by a queue of the usual capacity. -/
def connectQueued (source target : NodeId) : InPlace σ ω QueueId := do
  let capacity ← look fun g ↦ .ok g.options.queueCapacity
  connectQueuedWithCapacity source target capacity

end Queued

def ensureThawed : InPlace σ ω Unit :=
  look fun g ↦ if g.isRunning then .error .frozen else .ok ()

def bindControl (ref : PortRef) (name : String) (storage : Storage)
    (validator : Option (Validator storage)) : InPlace σ ω Unit := do
  ensureThawed
  match (← look (·.node ref.node)).ports[ref.port]? with
  | none => throw (.port ref (.noSuchPort ref.port))
  | some (.control c) =>
    if c.storage = storage then
      change fun g ↦ ((), g.bound name ⟨ref.node, ref.port, storage, validator⟩)
    else throw (.binding name ref (.wrongControlType storage c.storage))
  | some _ => throw (.binding name ref (.notAControl ref.port))

def unbindAll : InPlace σ ω Unit := do
  ensureThawed
  change fun g ↦ ((), { g with bindings := .empty })

end InPlace

/-- A request to change what is connected or bound. -/
inductive Request where
  | connect (source target : NodeId)
  | connectPorts (source target : PortRef)
  | connectQueued (source target : NodeId)
  | connectQueuedWithCapacity (source target : NodeId) (capacity : Nat)
  | connectQueuedPorts (source target : PortRef) (capacity : Nat)
  | bind (ref : PortRef) (name : String) (storage : Storage)
      (validator : Option (Validator storage))
  | unbindAll

/-- The program of a request, which gives the queue that it makes, if any. -/
def Request.program [Behaviour σ ω] : Request → InPlace σ ω (Option QueueId)
  | .connect source target => (fun _ ↦ none) <$> InPlace.connect source target
  | .connectPorts source target => (fun _ ↦ none) <$> InPlace.connectPorts source target
  | .connectQueued source target => some <$> InPlace.connectQueued source target
  | .connectQueuedWithCapacity source target capacity =>
    some <$> InPlace.connectQueuedWithCapacity source target capacity
  | .connectQueuedPorts source target capacity =>
    some <$> InPlace.connectQueuedPorts source target capacity
  | .bind ref name storage validator =>
    (fun _ ↦ none) <$> InPlace.bindControl ref name storage validator
  | .unbindAll => (fun _ ↦ none) <$> InPlace.unbindAll

/-- The result of a request that gives a new graph. -/
def Request.result [Behaviour σ ω] (g : Graph σ ω) :
    Request → Except GraphError (Option QueueId × Graph σ ω)
  | .connect source target => (g.connect source target).map (none, ·)
  | .connectPorts source target => (g.connectPorts source target).map (none, ·)
  | .connectQueued source target =>
    (g.connectQueued source target).map fun (queue, g') ↦ (some queue, g')
  | .connectQueuedWithCapacity source target capacity =>
    (g.connectQueuedWithCapacity source target capacity).map fun (queue, g') ↦ (some queue, g')
  | .connectQueuedPorts source target capacity =>
    (g.connectQueuedPorts source target capacity).map fun (queue, g') ↦ (some queue, g')
  | .bind ref name storage validator => (g.bind ref name storage validator).map (none, ·)
  | .unbindAll => g.unbindAll.map (none, ·)

namespace InPlace

/-! ## What comes of a program -/

/-- What comes of a request that gives a new graph if it is accepted. -/
def settle (g : Graph σ ω) : Except GraphError (α × Graph σ ω) → Except GraphError α × Graph σ ω
  | .ok (a, g') => (.ok a, g')
  | .error e => (.error e, g)

theorem exec_bind (program : InPlace σ ω α) (next : α → InPlace σ ω β) (g : Graph σ ω) :
    (program >>= next).exec g = match program.exec g with
      | (.ok a, g') => (next a).exec g'
      | (.error e, g') => (.error e, g') := by
  change (match program.run.run g with
    | (x, g') => (ExceptT.bindCont next x).run g') = _
  rcases hp : program.run.run g with ⟨_ | _, g'⟩ <;> simp only [exec, hp] <;> rfl

theorem exec_look (query : Graph σ ω → Except GraphError α) (g : Graph σ ω) :
    (look query).exec g = (query g, g) := by
  change (match query g with
    | .ok a => (pure a : InPlace σ ω α)
    | .error e => throw e).exec g = _
  cases query g <;> rfl

/-- Two programs that only look are one that only looks. -/
theorem exec_query {program : InPlace σ ω α} {x : Except GraphError α} {next : α → InPlace σ ω β}
    {y : α → Except GraphError β} (hx : program.exec g = (x, g))
    (hy : ∀ a, x = .ok a → (next a).exec g = (y a, g)) :
    (program >>= next).exec g = (x >>= y, g) := by
  rw [exec_bind, hx]
  cases x with
  | error e => rfl
  | ok a => exact hy a rfl

/-- A check in front of a program is one in front of its result. -/
theorem exec_guard {program : InPlace σ ω α} {x : Except GraphError α} {next : α → InPlace σ ω β}
    {rest : α → Except GraphError (β × Graph σ ω)} (hx : program.exec g = (x, g))
    (hrest : ∀ a, x = .ok a → (next a).exec g = settle g (rest a)) :
    (program >>= next).exec g = settle g (x >>= rest) := by
  rw [exec_bind, hx]
  cases x with
  | error e => rfl
  | ok a => exact hrest a rfl

theorem exec_subgraphsOf (a b : NodeId) (g : Graph σ ω) :
    (subgraphsOf a b).exec g = (.ok (g.subgraphOf a, g.subgraphOf b), g) :=
  exec_look _ g

theorem exec_output {o : Output} (h : g.port source = .ok (.output o)) :
    (output source).exec g = (.ok o, g) := by
  unfold output
  rw [exec_bind, exec_look, h]
  rfl

theorem exec_attach {type : DataType} {value : Option Datum}
    (h : g.port target = .ok (.input (.ofType type))) :
    (attach source ⟨type, value⟩ target).exec g =
      (.ok (), g.wire target ⟨type, some source⟩) := by
  have hattach : (Input.ofType type).attach source type = .ok ⟨type, some source⟩ :=
    Input.attach_eq_ok_iff.2 ⟨rfl, rfl⟩
  unfold attach
  rw [exec_bind, exec_look, h]
  simp only [hattach]
  rfl

/-- Two nodes meet as in a join, and the edge between them is recorded behind. -/
theorem exec_meet (a b : NodeId) (g : Graph σ ω) :
    ((meet a b (g.subgraphOf a, g.subgraphOf b)) >>= fun id ↦
      changePartition fun p ↦ ((), p.addEdge id (a, b))).exec g =
        (.ok (), { g with partition := g.partition.join a b }) := by
  unfold subgraphOf Partition.join
  rcases g.partition.of a with _ | s <;> rcases g.partition.of b with _ | t <;> rfl

/-- A direct connection in place is refused before its first change, or not at all. -/
theorem exec_connectPorts (source target : PortRef) (g : Graph σ ω) :
    (connectPorts source target).exec g =
      settle g ((g.connectPorts source target).map ((), ·)) := by
  unfold connectPorts Graph.connectPorts
  simp only [map_bind_except]
  refine exec_guard (exec_look _ g) fun _ _ ↦ exec_guard (exec_look _ g) fun i hi ↦ ?_
  rw [exec_bind, exec_subgraphsOf]
  refine exec_guard (exec_look _ g) fun _ _ ↦ ?_
  -- The ports are those of the check, so that neither is missed.
  obtain ⟨type, ⟨-, ⟨value, hsource⟩, htarget⟩, rfl⟩ := attached_eq_ok_iff_fits.1 hi
  rw [exec_bind, exec_output hsource]
  simp only
  rw [exec_bind, exec_attach htarget]
  exact exec_meet source.node target.node (g.wire target ⟨type, some source⟩)

theorem exec_connect (source target : NodeId) (g : Graph σ ω) :
    (connect source target).exec g = settle g ((g.connect source target).map ((), ·)) := by
  unfold connect Graph.connect
  simp only [map_bind_except]
  refine exec_guard (exec_look _ g) fun _ _ ↦ exec_guard (exec_look _ g) fun output _ ↦ ?_
  exact exec_guard (exec_look _ g) fun input _ ↦ exec_connectPorts output input g

theorem exec_ensureThawed (g : Graph σ ω) :
    ensureThawed.exec g = (if g.isRunning then .error .frozen else .ok (), g) :=
  exec_look _ g

theorem exec_bindControl (ref : PortRef) (name : String) (storage : Storage)
    (validator : Option (Validator storage)) (g : Graph σ ω) :
    (bindControl ref name storage validator).exec g =
      settle g ((g.bind ref name storage validator).map ((), ·)) := by
  unfold bindControl Graph.bind
  rw [exec_bind, exec_ensureThawed]
  cases g.isRunning with
  | true => rfl
  | false =>
    simp only [Bool.false_eq_true, if_false, map_bind_except]
    refine exec_guard (exec_look _ g) fun n _ ↦ ?_
    rcases n.ports[ref.port]? with _ | ⟨i | o | c⟩
    · rfl
    · rfl
    · rfl
    · by_cases hstorage : c.storage = storage
      · simp only [if_pos hstorage]
        rfl
      · simp only [if_neg hstorage]
        rfl

theorem exec_unbindAll (g : Graph σ ω) :
    unbindAll.exec g = settle g (g.unbindAll.map ((), ·)) := by
  unfold unbindAll Graph.unbindAll
  rw [exec_bind, exec_ensureThawed]
  cases g.isRunning <;> rfl

/-- The checks of a connection by a queue change nothing. -/
theorem exec_checkBridge (source target : PortRef) (g : Graph σ ω) :
    (checkBridge source target).exec g = (g.ensureStopped >>= fun _ ↦
      (g.checkQueue source.node target.node).mapError .badTopology >>= fun _ ↦
        g.attached source target >>= fun i ↦ .ok i.type, g) := by
  unfold checkBridge
  refine exec_query (exec_look _ g) fun _ _ ↦ exec_query (exec_look _ g) fun _ _ ↦ ?_
  refine exec_query (exec_look _ g) fun i hi ↦ ?_
  obtain ⟨type, ⟨-, ⟨value, hsource⟩, -⟩, rfl⟩ := attached_eq_ok_iff_fits.1 hi
  rw [exec_bind, exec_output hsource]
  rfl

theorem fits_of_checkBridge {type : DataType}
    (h : ((checkBridge source target).exec g).1 = .ok type) :
    g.isRunning = false ∧ g.Fits source target type := by
  rw [exec_checkBridge] at h
  obtain ⟨_, hstopped, h⟩ := bind_eq_ok_iff.1 h
  obtain ⟨_, -, h⟩ := bind_eq_ok_iff.1 h
  obtain ⟨i, hi, h⟩ := bind_eq_ok_iff.1 h
  obtain ⟨type', hfits, rfl⟩ := attached_eq_ok_iff_fits.1 hi
  cases h
  exact ⟨ensureStopped_eq_ok_iff.1 hstopped, hfits⟩

section Queued

variable [Behaviour σ ω] {capacity : Nat} {type : DataType}

/-- Nothing is refused any more when the queue is put in. -/
theorem exec_placeBridge (h : g.Consistent t) (hstopped : g.isRunning = false)
    (hfits : g.Fits source target type) : (placeBridge source target type capacity).exec g =
      (.ok ⟨g.queues.length⟩, g.bridged source target type capacity) := by
  have hwriter : (connectPorts source ⟨⟨g.nodeCount⟩, 0⟩).exec (g.withAdapters type capacity) =
      (.ok (), g.withWriter source type capacity) := by
    rw [exec_connectPorts, h.connectPorts_writer hstopped hfits]
    rfl
  have hreader : (connectPorts ⟨⟨g.nodeCount + 1⟩, 0⟩ target).exec
      (g.withWriter source type capacity) =
        (.ok (), g.withReader source target type capacity) := by
    rw [exec_connectPorts, h.connectPorts_reader hstopped hfits]
    rfl
  obtain ⟨producer, consumer, hproducer, hconsumer, hbridged⟩ := h.exists_ends hfits capacity
  have hindex : ((g.addQueue type capacity).2.push (Adapter.writerPorts type)
      (.writer ⟨g.queues.length⟩)).2.slots.length = g.nodeCount + 1 := List.length_append ..
  calc (placeBridge source target type capacity).exec g
    _ = (connectAdapters source target ⟨g.queues.length⟩ ⟨g.nodeCount⟩ ⟨_⟩).exec
          (g.withAdapters type capacity) := rfl
    _ = (connectAdapters source target ⟨g.queues.length⟩ ⟨g.nodeCount⟩ ⟨g.nodeCount + 1⟩).exec
          (g.withAdapters type capacity) := by rw [← hindex]; rfl
    _ = (.ok ⟨g.queues.length⟩, g.bridged source target type capacity) := by
      unfold connectAdapters
      rw [exec_bind, hwriter]
      simp only
      rw [exec_bind, hreader]
      simp only
      rw [exec_bind, exec_subgraphsOf, hproducer, hconsumer]
      exact congrArg (Except.ok _, ·) hbridged

/-- A connection by a queue in place is refused before its first change, or not at all. -/
theorem exec_connectQueuedPorts (h : g.Consistent t) (source target : PortRef) (capacity : Nat) :
    (connectQueuedPorts source target capacity).exec g =
      settle g (g.connectQueuedPorts source target capacity) := by
  have hresult : g.connectQueuedPorts source target capacity =
      (g.ensureStopped >>= fun _ ↦
        (g.checkQueue source.node target.node).mapError .badTopology >>= fun _ ↦
          g.attached source target >>= fun i ↦ .ok i.type) >>= fun type ↦
            .ok (⟨g.queues.length⟩, g.bridged source target type capacity) := by
    rcases hstopped : g.ensureStopped with e | _
    · simp only [Graph.connectQueuedPorts, hstopped]
      rfl
    · rcases hqueue : g.checkQueue source.node target.node with e | _
      · simp only [Graph.connectQueuedPorts, hstopped, hqueue]
        rfl
      · rcases hattached : g.attached source target with e | i
        · simp only [Graph.connectQueuedPorts, hstopped, hqueue, hattached]
          rfl
        · obtain ⟨type, hfits, rfl⟩ := attached_eq_ok_iff_fits.1 hattached
          exact h.connectQueuedPorts_eq (ensureStopped_eq_ok_iff.1 hstopped) hfits hqueue
  rw [hresult]
  refine exec_guard (exec_checkBridge source target g) fun type htype ↦ ?_
  have hchecked : ((checkBridge source target).exec g).1 = .ok type :=
    (congrArg Prod.fst (exec_checkBridge source target g)).trans htype
  obtain ⟨hstopped, hfits⟩ := fits_of_checkBridge hchecked
  exact exec_placeBridge h hstopped hfits

theorem exec_connectQueuedWithCapacity (h : g.Consistent t) (source target : NodeId)
    (capacity : Nat) : (connectQueuedWithCapacity source target capacity).exec g =
      settle g (g.connectQueuedWithCapacity source target capacity) := by
  unfold connectQueuedWithCapacity Graph.connectQueuedWithCapacity
  refine exec_guard (exec_look _ g) fun _ _ ↦ exec_guard (exec_look _ g) fun output _ ↦ ?_
  exact exec_guard (exec_look _ g) fun input _ ↦ exec_connectQueuedPorts h output input capacity

theorem exec_connectQueued (h : g.Consistent t) (source target : NodeId) :
    (connectQueued source target).exec g = settle g (g.connectQueued source target) := by
  unfold connectQueued
  rw [exec_bind, exec_look]
  exact exec_connectQueuedWithCapacity h source target g.options.queueCapacity

end Queued

end InPlace

namespace InPlace

theorem exec_map (f : α → β) (program : InPlace σ ω α) (g : Graph σ ω) :
    (f <$> program).exec g = ((program.exec g).1.map f, (program.exec g).2) := by
  rw [map_eq_pure_bind, exec_bind]
  rcases program.exec g with ⟨_ | _, g'⟩ <;> rfl

theorem exec_map_none {program : InPlace σ ω Unit} {x : Except GraphError (Graph σ ω)}
    (h : program.exec g = settle g (x.map ((), ·))) :
    ((fun _ ↦ none) <$> program : InPlace σ ω (Option α)).exec g = settle g (x.map (none, ·)) := by
  rw [exec_map, h]
  cases x <;> rfl

theorem exec_map_some {program : InPlace σ ω α} {x : Except GraphError (α × Graph σ ω)}
    (h : program.exec g = settle g x) :
    (some <$> program).exec g = settle g (x.map fun (a, g') ↦ (some a, g')) := by
  rw [exec_map, h]
  cases x <;> rfl

end InPlace

section Requests

variable [Behaviour σ ω]

open InPlace

/-- A request in place has the result of one that gives a new graph. -/
theorem Request.exec_program (h : g.Consistent t) (request : Request) :
    request.program.exec g = settle g (request.result g) := by
  cases request with
  | connect source target => exact exec_map_none (exec_connect source target g)
  | connectPorts source target => exact exec_map_none (exec_connectPorts source target g)
  | connectQueued source target => exact exec_map_some (exec_connectQueued h source target)
  | connectQueuedWithCapacity source target capacity =>
    exact exec_map_some (exec_connectQueuedWithCapacity h source target capacity)
  | connectQueuedPorts source target capacity =>
    exact exec_map_some (exec_connectQueuedPorts h source target capacity)
  | bind ref name storage validator =>
    exact exec_map_none (exec_bindControl ref name storage validator g)
  | unbindAll => exact exec_map_none (exec_unbindAll g)

/-- A graph on which requests in place are carried out as a whole or not at all. -/
structure Atomic (g : Graph σ ω) : Prop where
  /-- A request that is refused leaves the graph as it was. -/
  refused : ∀ (request : Request) e g', request.program.exec g = (.error e, g') → g' = g
  /-- A request in place is refused for the reason of its result, or gives the graph of it. -/
  agrees : ∀ request : Request, request.program.exec g = settle g (request.result g)
  /-- A queue that the checks let through is put in, and no step behind is refused. -/
  placed : ∀ source target type capacity, ((checkBridge source target).exec g).1 = .ok type →
    ∃ g', (placeBridge source target type capacity).exec g = (.ok ⟨g.queues.length⟩, g')

theorem Consistent.atomic (h : g.Consistent t) : g.Atomic where
  agrees request := request.exec_program h
  refused request e g' hrefused := by
    rw [request.exec_program h] at hrefused
    rcases hresult : request.result g with e' | ⟨queue, g''⟩
    · rw [hresult] at hrefused
      exact (congrArg Prod.snd hrefused).symm
    · rw [hresult] at hrefused
      cases hrefused
  placed source target type capacity hchecked := by
    obtain ⟨hstopped, hfits⟩ := fits_of_checkBridge hchecked
    exact ⟨_, exec_placeBridge h hstopped hfits⟩

/-- Whatever was done to a graph, a request that it refuses changes nothing. -/
theorem requests_are_atomic (options : Options) (operations : List (Operation σ ω)) :
    ((empty options).after operations).Atomic :=
  (consistent_after options operations).atomic

end Requests

end SignalFlow.Graph
