import SignalFlow.Proofs.Node.Transfers

/-!
# What the ends of a queue do

A writer offers what its inputs read when it is processed, the single item first. It never fails,
and nothing of it changes. A reader takes one item when it is processed, and publishes it if its
output is empty. In all other phases neither of them uses the queue.
-/

namespace SignalFlow

def Event.stored (port : Nat) (events : List Event) : List Datum :=
  events.filterMap fun
    | .store p value (.ok ()) => if p = port then some value else none
    | .store _ _ (.error _) | .read _ _ | .hasData _ _ | .clear _ | .clearAll => none

def batchItems : Option Datum → List Datum
  | some (.list items) => items
  | _ => []

/-- Transfers of a writer that was given a single item and a batch. -/
structure Transfer.Writes (queue : QueueId) (single : Option Datum) (batch : List Datum)
    (ts : List Transfer) : Prop where
  only : ∀ t ∈ ts, t.queue = queue ∧ t.isOffer = true
  offered : ∃ rest, rest <+: batch ∧ Transfer.offered queue ts = single.toList ++ rest
  complete : (∀ t ∈ ts, t.isRefused = false) →
    Transfer.offered queue ts = single.toList ++ batch

section Reading

variable {κ ω : Type} (published : κ → Option Datum)

/-- The value that the input at an index reads, if any. -/
def readAt (ports : List (Port κ ω)) (index : Nat) : Option Datum :=
  (sources ports index).bind published

theorem toOption_read (scene : Scene κ ω) (index : Nat) :
    ((scene.input index).bind (·.read published)).toOption =
      readAt published scene.ports index := by
  unfold readAt
  cases hi : scene.input index with
  | error fault =>
    cases hsource : sources scene.ports index with
    | none => rfl
    | some source =>
      obtain ⟨i, hi', -⟩ := Scene.input_of_source hsource
      rw [hi] at hi'
      cases hi'
  | ok i =>
    rw [Scene.source_of_input hi]
    cases hsource : i.source with
    | none =>
      simp only [Except.bind, Input.read, hsource]
      rfl
    | some source =>
      simp only [Except.bind, Input.read_of_source hsource, Option.bind_some]
      cases published source <;> rfl

end Reading

namespace Act

variable {κ ω : Type} (published : κ → Option Datum)

/-- The offers of a batch as steps of a call. -/
theorem offerAll_cons (queue : QueueId) (item : Datum) (rest : List Datum) :
    (Adapter.offerAll queue (item :: rest) : NodeProgram Unit ω Unit).run.run () =
      .offer queue item fun accepted ↦
        if accepted then (Adapter.offerAll queue rest).run.run ()
        else .look queue fun shape ↦
          .report (.queueFull shape (some (rest.length + 1))) fun _ ↦ .done (.ok (), ()) := by
  change Act.offer queue item _ = Act.offer queue item _
  congr 1
  funext accepted
  cases accepted <;> rfl

theorem writes_offerAll (queue : QueueId) (items : List Datum) (scene : Scene κ ω) :
    Transfer.Writes queue none items
      (((Adapter.offerAll queue items : NodeProgram Unit ω Unit).run.run ()).transfers published
        scene) := by
  induction items generalizing scene with
  | nil => exact ⟨List.forall_mem_nil _, ⟨[], List.prefix_rfl, rfl⟩, fun _ ↦ rfl⟩
  | cons item rest ih =>
    rw [offerAll_cons]
    simp only [transfers]
    cases (scene.offer queue item).2 with
    | true =>
      obtain ⟨honly, ⟨more, hmore, hoffered⟩, hcomplete⟩ := ih (scene.offer queue item).1
      refine ⟨List.forall_mem_cons.2 ⟨⟨rfl, rfl⟩, honly⟩, ⟨item :: more, ?_, ?_⟩, fun h ↦ ?_⟩
      · exact List.cons_prefix_cons.2 ⟨rfl, hmore⟩
      · simpa [Transfer.offered] using hoffered
      · have hrest := hcomplete fun t ht ↦ h t (List.mem_cons_of_mem _ ht)
        simpa [Transfer.offered] using hrest
    | false =>
      refine ⟨?_, ⟨[item], ?_, ?_⟩, fun h ↦ ?_⟩
      · exact List.forall_mem_cons.2 ⟨⟨rfl, rfl⟩, List.forall_mem_nil _⟩
      · exact List.cons_prefix_cons.2 ⟨rfl, List.nil_prefix⟩
      · simp [Transfer.offered, transfers]
      · cases h _ List.mem_cons_self

theorem run_offerAll (queue : QueueId) (items : List Datum) (scene : Scene κ ω) :
    (((Adapter.offerAll queue items : NodeProgram Unit ω Unit).run.run ()).run published
        scene).1.1 = .ok () ∧
      (((Adapter.offerAll queue items : NodeProgram Unit ω Unit).run.run ()).run published
        scene).2.1.ports = scene.ports := by
  induction items generalizing scene with
  | nil => exact ⟨rfl, rfl⟩
  | cons item rest ih =>
    rw [offerAll_cons]
    simp only [run]
    cases (scene.offer queue item).2 with
    | true =>
      obtain ⟨hending, hports⟩ := ih (scene.offer queue item).1
      exact ⟨hending, hports.trans (scene.ports_offer queue item)⟩
    | false => exact ⟨rfl, scene.ports_offer queue item⟩

end Act

namespace Role

variable {σ ω κ : Type} [Behaviour σ ω] {queue : QueueId} (published : κ → Option Datum)

/-- The offer of a single item, if there is one. -/
def offerSingle (queue : QueueId) (single : Option Datum) : Act ω Unit :=
  single.elim (.done ()) fun item ↦ .offer queue item fun accepted ↦
    if accepted then .done ()
    else .look queue fun shape ↦ .report (.queueFull shape none) fun _ ↦ .done ()

/-- A writer reads its first input and offers what it reads, and then does the same with the items
of a batch. -/
theorem perform_writer (queue : QueueId) (thread : Option String) :
    (writer queue : Role σ).perform .process thread =
      .read 0 fun single ↦ (offerSingle queue single.toOption).andThen fun _ ↦
        .read 1 fun batch ↦
          ((Adapter.offerAll queue (batchItems batch.toOption) :
            NodeProgram Unit ω Unit).run.run ()).andThen fun r ↦ .done (r.1, .writer queue) := by
  have hread {first second : Except PortFault Datum → Act ω (Except Stop Unit × Role σ)}
      (herror : ∀ fault, first (.error fault) = second (.error fault))
      (hok : ∀ value, first (.ok value) = second (.ok value)) :
      Act.read 1 first = .read 1 second := by
    congr 1
    funext batch
    cases batch with
    | error fault => exact herror fault
    | ok value => exact hok value
  change Act.read 0 _ = _
  congr 1
  funext single
  cases single with
  | error fault => exact hread (fun _ ↦ rfl) fun value ↦ by cases value <;> rfl
  | ok item =>
    change Act.offer queue item _ = Act.offer queue item _
    congr 1
    funext accepted
    cases accepted with
    | true => exact hread (fun _ ↦ rfl) fun value ↦ by cases value <;> rfl
    | false =>
      change Act.look queue _ = Act.look queue _
      congr 1
      funext shape
      change Act.report _ _ = Act.report _ _
      congr 1
      funext reported
      exact hread (fun _ ↦ rfl) fun value ↦ by cases value <;> rfl

/-- The offer of a single item changes no port, and makes no other transfer. -/
theorem run_offerSingle (queue : QueueId) (single : Option Datum) (scene : Scene κ ω) :
    ((offerSingle queue single : Act ω Unit).run published scene).2.1.ports = scene.ports ∧
      (offerSingle queue single : Act ω Unit).transfers published scene =
        single.toList.map fun item ↦ .offer queue item (scene.offer queue item).2 := by
  cases single with
  | none => exact ⟨rfl, rfl⟩
  | some item =>
    simp only [offerSingle, Option.elim_some, Act.run, Act.transfers, Option.toList_some,
      List.map_cons, List.map_nil]
    cases (scene.offer queue item).2 <;> exact ⟨scene.ports_offer queue item, rfl⟩

/-- A writer offers what its inputs read. -/
theorem writes_perform (queue : QueueId) (thread : Option String) (scene : Scene κ ω) :
    Transfer.Writes queue (readAt published scene.ports 0)
      (batchItems (readAt published scene.ports 1))
      (((writer queue : Role σ).perform .process thread).transfers published scene) := by
  obtain ⟨hports, htransfers⟩ :=
    run_offerSingle published queue (readAt published scene.ports 0) scene
  rw [perform_writer]
  simp only [Act.transfers, Act.transfers_andThen, toOption_read, hports, htransfers,
    List.append_nil]
  obtain ⟨honly, ⟨rest, hrest, hoffered⟩, hcomplete⟩ := Act.writes_offerAll published queue
    (batchItems (readAt published scene.ports 1))
    ((offerSingle queue (readAt published scene.ports 0)).run published scene).2.1
  have hsingle : Transfer.offered queue ((readAt published scene.ports 0).toList.map fun item ↦
      .offer queue item (scene.offer queue item).2) = (readAt published scene.ports 0).toList := by
    cases readAt published scene.ports 0 with
    | none => rfl
    | some item => simp [Transfer.offered]
  refine ⟨?_, ⟨rest, hrest, ?_⟩, fun h ↦ ?_⟩
  · refine List.forall_mem_append.2 ⟨?_, honly⟩
    intro t ht
    obtain ⟨item, -, rfl⟩ := List.mem_map.1 ht
    exact ⟨rfl, rfl⟩
  · rw [Transfer.offered_append, hsingle, hoffered]
    rfl
  · rw [Transfer.offered_append, hsingle,
      hcomplete fun t ht ↦ h t (List.mem_append_right _ ht)]
    rfl

/-- Nothing of a writer changes, and it does not fail. -/
theorem run_perform_writer (queue : QueueId) (thread : Option String) (scene : Scene κ ω) :
    (((writer queue : Role σ).perform .process thread).run published scene).1 =
        (.ok (), .writer queue) ∧
      (((writer queue : Role σ).perform .process thread).run published scene).2.1.ports =
        scene.ports := by
  rw [perform_writer]
  simp only [Act.run, Act.run_andThen, toOption_read]
  obtain ⟨hports, -⟩ := run_offerSingle published queue (readAt published scene.ports 0) scene
  obtain ⟨hending, hports'⟩ := Act.run_offerAll published queue
    (batchItems (readAt published
      ((offerSingle queue (readAt published scene.ports 0)).run published scene).2.1.ports 1))
    ((offerSingle queue (readAt published scene.ports 0)).run published scene).2.1
  exact ⟨Prod.ext hending rfl, hports'.trans hports⟩

/-- A reader takes an item and publishes it, if there is one. -/
theorem perform_reader (queue : QueueId) (thread : Option String) :
    (reader queue : Role σ).perform .process thread =
      .take queue fun item ↦ item.elim
        (.look queue fun shape ↦ .report (.queueEmpty shape) fun _ ↦ .done (.ok (), .reader queue))
        fun item ↦ .store 0 item fun result ↦
          .done (result.mapError fun fault ↦ .fault (.port fault), .reader queue) := by
  change Act.take queue _ = _
  congr 1
  funext item
  cases item with
  | none => rfl
  | some item =>
    change Act.store 0 item _ = Act.store 0 item _
    congr 1
    funext result
    cases result <;> rfl

theorem transfers_perform_reader (queue : QueueId) (thread : Option String) (scene : Scene κ ω) :
    ((reader queue : Role σ).perform .process thread).transfers published scene =
      [.take queue (scene.take queue).2] := by
  rw [perform_reader]
  simp only [Act.transfers]
  cases (scene.take queue).2 with
  | none => rfl
  | some item =>
    simp only [Option.elim_some, Act.transfers]
    split <;> rfl

/-- A reader whose output is empty publishes the item that it takes. -/
theorem stored_perform_reader {type : DataType} (queue : QueueId) (thread : Option String)
    {scene : Scene κ ω} (hport : scene.ports[0]? = some (.output (.ofType type))) :
    Event.stored 0 (((reader queue : Role σ).perform .process thread).trace published scene) =
      (scene.take queue).2.toList := by
  rw [perform_reader]
  simp only [Act.trace]
  cases (scene.take queue).2 with
  | none => rfl
  | some item =>
    have hport' : (scene.take queue).1.ports[0]? = some (.output (.ofType type)) := by
      rw [scene.ports_take, hport]
    have hstore : (scene.take queue).1.store 0 item =
        .ok ((scene.take queue).1.setPort 0 (.output ⟨type, some item⟩)) := by
      unfold Scene.store Scene.output Scene.port
      rw [hport']
      rfl
    simp only [Option.elim_some, Act.trace, hstore]
    rfl

/-- What comes of a call of a reader depends on its ports and on the item that it takes. -/
theorem run_perform_reader_congr {published' : κ → Option Datum} (queue : QueueId)
    (thread : Option String) {scene scene' : Scene κ ω} (hports : scene'.ports = scene.ports)
    (hpublished : ∀ index source, sources scene.ports index = some source →
      published' source = published source)
    (htake : (scene'.take queue).2 = (scene.take queue).2) :
    (((reader queue : Role σ).perform .process thread).run published' scene').1 =
        (((reader queue : Role σ).perform .process thread).run published scene).1 ∧
      (((reader queue : Role σ).perform .process thread).run published' scene').2.1.ports =
        (((reader queue : Role σ).perform .process thread).run published scene).2.1.ports := by
  have halike : (scene.take queue).1.Alike (fun _ ↦ False) (scene'.take queue).1 :=
    ⟨by rw [scene'.ports_take, scene.ports_take, hports], fun _ ↦ False.elim⟩
  rw [perform_reader]
  simp only [Act.run]
  rw [htake]
  cases (scene.take queue).2 with
  | none => exact ⟨rfl, halike.ports⟩
  | some item =>
    have hstore : (Act.store 0 item fun result ↦ .done (result.mapError fun fault ↦
        Stop.fault (.port fault), (reader queue : Role σ)) : Act ω _).Within
          ⟨fun _ ↦ True, fun _ ↦ False⟩ fun _ ↦ True := fun _ ↦ trivial
    have hsources : ∀ index source, sources (scene.take queue).1.ports index = some source →
        published' source = published source := by
      rwa [scene.ports_take]
    obtain ⟨hbehind, hresult⟩ := hstore.run_congr halike hsources
    exact ⟨hresult, hbehind.ports⟩

/-- Writers and readers that are not processed make no transfer, and store nothing. -/
theorem perform_of_ne_process {role : Role σ} (hidden : role.isHidden = true) {phase : Phase}
    (hphase : phase ≠ .process) (thread : Option String) (scene : Scene κ ω) (port : Nat) :
    (role.perform phase thread).transfers published scene = [] ∧
      Event.stored port ((role.perform phase thread).trace published scene) = [] := by
  cases role with
  | custom state => cases hidden
  | writer queue | reader queue =>
    cases phase with
    | process => exact absurd rfl hphase
    | init | reset | destroy => exact ⟨rfl, rfl⟩

/-- A node that was put in for a queue uses this queue only, at its own end. -/
theorem uses_of_isHidden {role : Role σ} (hidden : role.isHidden = true) (phase : Phase)
    (thread : Option String) (scene : Scene κ ω) :
    ∀ t ∈ (role.perform phase thread).transfers published scene,
      role = .writer t.queue ∧ t.isOffer = true ∨ role = .reader t.queue ∧ t.isOffer = false := by
  by_cases hphase : phase = .process
  · subst hphase
    cases role with
    | custom state => cases hidden
    | writer queue =>
      intro t ht
      obtain ⟨rfl, hoffer⟩ := (writes_perform published queue thread scene).only t ht
      exact .inl ⟨rfl, hoffer⟩
    | reader queue =>
      intro t ht
      rw [transfers_perform_reader, List.mem_singleton] at ht
      subst ht
      exact .inr ⟨rfl, rfl⟩
  · rw [(perform_of_ne_process published hidden hphase thread scene 0).1]
    nofun

end Role

end SignalFlow
