import SignalFlow.Demo.Node
import SignalFlow.Proofs.Node.Ends

/-!
# A queue that a writer shares with a consumer

A writer offers a single item and then the items of a batch, and stops at the first of the batch
that is refused. By itself it appends what fits and drops the rest. If a consumer takes items in the
meantime, room can appear again behind a refusal; even then what enters the queue of a batch is how
the batch begins, so that no item of it is passed over.
-/

namespace SignalFlow

def Queue.appendAll {α : Type} (q : Queue α) (items : List α) : Queue α :=
  { q with items := q.items ++ items }

namespace Transfer

variable {queue : QueueId} {q : Queue Datum} {items : List Datum} {ts : List Transfer}

/-- Offers of items, one behind the other, up to the first that is refused. -/
inductive Pours (queue : QueueId) : List Datum → List Transfer → Prop
  | nothing : Pours queue [] []
  | accepted {item : Datum} {rest : List Datum} {ts : List Transfer} (h : Pours queue rest ts) :
      Pours queue (item :: rest) (.offer queue item true :: ts)
  | refused {item : Datum} {rest : List Datum} :
      Pours queue (item :: rest) [.offer queue item false]

/-- Of items that are poured into a queue the first ones enter it. -/
theorem Pours.accepted_isPrefix (h : Pours queue items ts) :
    Transfer.accepted queue ts <+: items := by
  induction h with
  | nothing => exact List.prefix_rfl
  | @accepted item rest ts _ ih =>
    have hcons : Transfer.accepted queue (.offer queue item true :: ts) =
        item :: Transfer.accepted queue ts := by
      simp [Transfer.accepted]
    exact hcons ▸ List.cons_prefix_cons.2 ⟨rfl, ih⟩
  | refused => exact List.nil_prefix

/-- If nobody else uses the queue, as many items enter it as there is room for. -/
theorem Pours.accepted_eq_take (h : Pours queue items ts) (hobey : Obey queue q ts) :
    Transfer.accepted queue ts = items.take (q.capacity - q.size) := by
  induction h generalizing q with
  | nothing => exact List.take_nil.symm
  | @accepted item rest ts _ ih =>
    have hroom : q.size < q.capacity := by
      simpa [Queue.isFull] using hobey.1 item true rfl
    have hbehind : leave queue q (.offer queue item true) = q.append item := if_pos rfl
    have hsize : (q.append item).size = q.size + 1 := by simp [Queue.append, Queue.size]
    have hcapacity : q.capacity - q.size = q.capacity - (q.size + 1) + 1 := by omega
    have hrest : Transfer.accepted queue ts = rest.take (q.capacity - (q.size + 1)) :=
      hsize ▸ ih (hbehind ▸ hobey.2.2)
    rw [hcapacity, List.take_succ_cons, ← hrest]
    simp [Transfer.accepted]
  | @refused item rest =>
    have hfull : q.capacity ≤ q.size := by
      simpa [Queue.isFull] using hobey.1 item false rfl
    rw [Nat.sub_eq_zero_of_le hfull, List.take_zero]
    simp [Transfer.accepted]

theorem accepted_filter_isOffer (queue : QueueId) (ts : List Transfer) :
    accepted queue (ts.filter isOffer) = accepted queue ts := by
  unfold accepted
  rw [List.filterMap_filter]
  refine List.filterMap_congr fun t _ ↦ ?_
  cases t <;> rfl

/-- The offer of a single item, if there is one. -/
def single (queue : QueueId) (item : Option Datum) (accepted : Bool) : List Transfer :=
  item.toList.map (.offer queue · accepted)

theorem accepted_single (queue : QueueId) (item : Option Datum) (kept : Bool) :
    accepted queue (single queue item kept) = if kept = true then item.toList else [] := by
  cases item <;> cases kept <;> simp [accepted, single]

/-- As much of a single item and a batch behind it enters a queue as there is room for. -/
theorem Pours.accepted_single_eq_take {item : Option Datum} {kept : Bool} (h : Pours queue items ts)
    (hobey : Obey queue q (single queue item kept ++ ts)) :
    Transfer.accepted queue (single queue item kept ++ ts) =
      (item.toList ++ items).take (q.capacity - q.size) := by
  cases item with
  | none => exact h.accepted_eq_take hobey
  | some item =>
    cases kept with
    | true => exact (Pours.accepted h).accepted_eq_take hobey
    | false =>
      -- The single item is refused for want of room, and so is the first of the batch.
      have hfull : q.capacity ≤ q.size := by
        simpa [Queue.isFull] using hobey.1 item false rfl
      have hitems : Transfer.accepted queue ts = items.take (q.capacity - q.size) :=
        h.accepted_eq_take hobey.2.2
      have hroom : q.capacity - q.size = 0 := Nat.sub_eq_zero_of_le hfull
      calc
        Transfer.accepted queue (single queue (some item) false ++ ts) =
            Transfer.accepted queue ts := by
          rw [accepted_append, accepted_single]
          rfl
        _ = items.take (q.capacity - q.size) := hitems
        _ = ((some item).toList ++ items).take (q.capacity - q.size) := by
          rw [hroom, List.take_zero, List.take_zero]

theorem Pours.taken_eq_nil (h : Pours queue items ts) : taken queue ts = [] := by
  induction h with
  | nothing | refused => rfl
  | accepted _ ih => exact ih

/-- What is left of a queue that nobody else uses. -/
theorem Pours.foldl_leave_eq {item : Option Datum} {kept : Bool} (h : Pours queue items ts)
    (hobey : Obey queue q (single queue item kept ++ ts)) :
    (single queue item kept ++ ts).foldl (leave queue) q =
      q.appendAll ((item.toList ++ items).take (q.capacity - q.size)) := by
  let offers := single queue item kept ++ ts
  let room := q.capacity - q.size
  have htaken : taken queue offers = [] := by
    rw [taken_append, h.taken_eq_nil, List.append_nil]
    cases item <;> rfl
  have hitems : (offers.foldl (leave queue) q).items =
      q.items ++ (item.toList ++ items).take room := by
    calc
      (offers.foldl (leave queue) q).items =
          taken queue offers ++ (offers.foldl (leave queue) q).items := by
        rw [htaken, List.nil_append]
      _ = q.items ++ Transfer.accepted queue offers := hobey.balance
      _ = q.items ++ (item.toList ++ items).take room := by
        rw [h.accepted_single_eq_take hobey]
  calc
    offers.foldl (leave queue) q =
        ⟨(offers.foldl (leave queue) q).items, (offers.foldl (leave queue) q).capacity⟩ := rfl
    _ = q.appendAll ((item.toList ++ items).take room) := by
      rw [hitems, capacity_foldl_leave, Queue.appendAll]

/-- What becomes of a queue while its writer offers a single item and a batch, and others take items
out of it. -/
structure Shares (queue : QueueId) (item : Option Datum) (batch : List Datum) (q q' : Queue Datum)
    (ts : List Transfer) : Prop where
  /-- An item is accepted exactly if there is room at this moment, and the oldest item is taken. -/
  obey : Obey queue q ts
  /-- Items leave the queue in the order in which they entered it. -/
  conserved : taken queue ts ++ q'.items = q.items ++ accepted queue ts
  capacity : q'.capacity = q.capacity
  /-- The single item is offered once. Behind it the batch is offered up to its first refusal, so
  that what enters the queue of it is how it begins. -/
  enters : ∃ kept poured, ts.filter isOffer = single queue item kept ++ poured ∧
    Pours queue batch poured ∧ accepted queue poured <+: batch ∧
      accepted queue ts = (if kept = true then item.toList else []) ++ accepted queue poured

theorem Obey.shares {item : Option Datum} {kept : Bool} {poured : List Transfer}
    (h : Obey queue q ts) (hoffers : ts.filter isOffer = single queue item kept ++ poured)
    (hpoured : Pours queue items poured) :
    Shares queue item items q (ts.foldl (leave queue) q) ts where
  obey := h
  conserved := h.balance
  capacity := capacity_foldl_leave queue ts q
  enters := by
    refine ⟨kept, poured, hoffers, hpoured, hpoured.accepted_isPrefix, ?_⟩
    rw [← accepted_filter_isOffer, hoffers, accepted_append, accepted_single]

end Transfer

namespace Act

variable {κ ω α : Type}

/-- So many takes from a queue in front of a call. -/
def takeFirst (queue : QueueId) : (count : Nat) → Act ω α → Act ω α
  | 0, act => act
  | count + 1, act => .take queue fun _ ↦ takeFirst queue count act

/-- The steps of a call with those of a consumer between them, who takes items from a queue: the
counts say how many in front of each step of the call. -/
def amid (queue : QueueId) : (counts : List Nat) → Act ω α → Act ω α
  | counts, done result => takeFirst queue (counts.headD 0) (done result)
  | counts, read port next =>
    takeFirst queue (counts.headD 0) (read port fun r ↦ amid queue counts.tail (next r))
  | counts, hasData port next =>
    takeFirst queue (counts.headD 0) (hasData port fun r ↦ amid queue counts.tail (next r))
  | counts, store port datum next =>
    takeFirst queue (counts.headD 0) (store port datum fun r ↦ amid queue counts.tail (next r))
  | counts, clear port next =>
    takeFirst queue (counts.headD 0) (clear port fun r ↦ amid queue counts.tail (next r))
  | counts, clearAll next =>
    takeFirst queue (counts.headD 0) (clearAll fun r ↦ amid queue counts.tail (next r))
  | counts, value port next =>
    takeFirst queue (counts.headD 0) (value port fun r ↦ amid queue counts.tail (next r))
  | counts, set port v next =>
    takeFirst queue (counts.headD 0) (set port v fun r ↦ amid queue counts.tail (next r))
  | counts, offer id item next =>
    takeFirst queue (counts.headD 0) (offer id item fun r ↦ amid queue counts.tail (next r))
  | counts, take id next =>
    takeFirst queue (counts.headD 0) (take id fun r ↦ amid queue counts.tail (next r))
  | counts, look id next =>
    takeFirst queue (counts.headD 0) (look id fun r ↦ amid queue counts.tail (next r))
  | counts, report notice next =>
    takeFirst queue (counts.headD 0) (report notice fun r ↦ amid queue counts.tail (next r))

/-- Without a consumer a call is carried out by itself. -/
theorem amid_nil (queue : QueueId) (act : Act ω α) : act.amid queue [] = act := by
  induction act with
  | done result => rfl
  | read _ _ ih | hasData _ _ ih | store _ _ _ ih | clear _ _ ih | clearAll _ ih | value _ _ ih
  | set _ _ _ ih | offer _ _ _ ih | take _ _ ih | look _ _ ih | report _ _ ih =>
    exact congrArg _ (funext ih)

/-- What a call offers to queues when it is carried out. -/
def offers (published : κ → Option Datum) (act : Act ω α) (scene : Scene κ ω) : List Transfer :=
  (act.transfers published scene).filter Transfer.isOffer

/-- Whether the offers of a call on some ports and its result satisfy a condition, whatever the
queues hold and whatever a consumer takes from one of them in the meantime. -/
def Leads (published : κ → Option Datum) (queue : QueueId) (ports : List (Port κ ω))
    (act : Act ω α) (post : List Transfer → α → Prop) : Prop :=
  ∀ (counts : List Nat) (scene : Scene κ ω), scene.ports = ports →
    post ((act.amid queue counts).offers published scene)
      ((act.amid queue counts).run published scene).1

variable {published : κ → Option Datum} {queue : QueueId} {ports : List (Port κ ω)}
  {post : List Transfer → α → Prop}

theorem of_takeFirst {act : Act ω α} {count : Nat} {scene : Scene κ ω}
    (hports : scene.ports = ports) (h : ∀ scene : Scene κ ω, scene.ports = ports →
      post (act.offers published scene) (act.run published scene).1) :
    post ((act.takeFirst queue count).offers published scene)
      ((act.takeFirst queue count).run published scene).1 := by
  induction count generalizing scene with
  | zero => exact h scene hports
  | succ count ih => exact ih ((scene.ports_take queue).trans hports)

theorem leads_done {result : α} (h : post [] result) :
    (done result : Act ω α).Leads published queue ports post :=
  fun _ _ hports ↦ of_takeFirst hports fun _ _ ↦ h

theorem leads_read {port : Nat} {next : Except PortFault Datum → Act ω α}
    (h : ∀ r, r.toOption = readAt published ports port →
      (next r).Leads published queue ports post) :
    (read port next).Leads published queue ports post := by
  refine fun counts _ hports ↦ of_takeFirst hports fun scene hports ↦ ?_
  exact h _ (hports ▸ toOption_read published scene port) counts.tail scene hports

theorem leads_offer {item : Datum} {next : Bool → Act ω α}
    (h : ∀ accepted, (next accepted).Leads published queue ports fun ts ↦
      post (.offer queue item accepted :: ts)) :
    (offer queue item next).Leads published queue ports post := by
  refine fun counts _ hports ↦ of_takeFirst hports fun scene hports ↦ ?_
  exact h _ counts.tail _ ((scene.ports_offer queue item).trans hports)

theorem leads_look {next : QueueShape → Act ω α}
    (h : ∀ shape, (next shape).Leads published queue ports post) :
    (look queue next).Leads published queue ports post := by
  refine fun counts _ hports ↦ of_takeFirst hports fun scene hports ↦ ?_
  exact h _ counts.tail scene hports

theorem leads_report {notice : Notice ω} {next : Unit → Act ω α}
    (h : (next ()).Leads published queue ports post) :
    (report notice next).Leads published queue ports post := by
  refine fun counts _ hports ↦ of_takeFirst hports fun scene hports ↦ ?_
  exact h counts.tail scene hports

/-- A batch is offered up to its first refusal. -/
theorem leads_offerAll (items : List Datum) (more : Except Stop Unit × Unit → α)
    (h : ∀ ts, Transfer.Pours queue items ts → post ts (more (.ok (), ()))) :
    (((Adapter.offerAll queue items : NodeProgram Unit ω Unit).run.run ()).andThen
      fun r ↦ .done (more r)).Leads published queue ports post := by
  induction items generalizing post with
  | nil => exact leads_done (h [] .nothing)
  | cons item rest ih =>
    rw [offerAll_cons]
    refine leads_offer fun accepted ↦ ?_
    cases accepted with
    | true => exact ih fun ts hts ↦ h _ (.accepted hts)
    | false => exact leads_look fun shape ↦ leads_report (leads_done (h _ .refused))

/-- Behind the offer of a single item the call goes on whatever became of it. -/
theorem leads_offerSingle (item : Option Datum) {next : Act ω α}
    (h : ∀ kept, next.Leads published queue ports fun ts ↦
      post (Transfer.single queue item kept ++ ts)) :
    ((Role.offerSingle queue item).andThen fun _ ↦ next).Leads published queue ports post := by
  cases item with
  | none => exact h false
  | some item =>
    refine leads_offer fun accepted ↦ ?_
    cases accepted with
    | true => exact h true
    | false => exact leads_look fun shape ↦ leads_report (h false)

/-- A call that uses one queue only leaves all others as they are. -/
theorem queues_run_of_only (act : Act ω α) {scene : Scene κ ω} {q : DataQueue}
    (hq : scene.queues[queue.index]? = some q)
    (honly : ∀ t ∈ act.transfers published scene, t.queue = queue) :
    (act.run published scene).2.1.queues = (scene.setQueue queue
      ((act.transfers published scene).foldl (Transfer.leave queue) q.queue)).queues := by
  apply List.ext_getElem?
  intro k
  have hset := scene.queues_setQueue queue ⟨k⟩
    ((act.transfers published scene).foldl (Transfer.leave queue) q.queue)
  dsimp only at hset
  rw [hset]
  split
  · next hk =>
    subst hk
    exact (act.queue_run published hq).trans (by rw [hq, Option.map_some])
  · next hk =>
    cases hother : scene.queues[(⟨k⟩ : QueueId).index]? with
    | none =>
      rw [List.getElem?_eq_none_iff] at hother ⊢
      rwa [act.length_queues_run published scene]
    | some other =>
      have hleave : (act.transfers published scene).foldl (Transfer.leave ⟨k⟩) other.queue =
          other.queue :=
        Transfer.foldl_leave_of_ne (fun t ht ↦ (honly t ht).trans_ne hk) other.queue
      exact (act.queue_run published hother).trans (by rw [hleave])

end Act

/-! ## Writers -/

namespace Role

variable {σ ω κ : Type} [Behaviour σ ω] {queue : QueueId} {published : κ → Option Datum}
  {scene : Scene κ ω} {q : DataQueue}

/-- A writer offers what its inputs read, and does not fail. -/
theorem leads_writer (published : κ → Option Datum) (queue : QueueId) (ports : List (Port κ ω))
    (thread : Option String) :
    ((writer queue : Role σ).perform .process thread).Leads published queue ports fun ts result ↦
      result = (.ok (), .writer queue) ∧ ∃ kept poured,
        ts = Transfer.single queue (readAt published ports 0) kept ++ poured ∧
          Transfer.Pours queue (batchItems (readAt published ports 1)) poured := by
  rw [perform_writer]
  refine Act.leads_read fun single hsingle ↦ Act.leads_offerSingle _ fun kept ↦
    Act.leads_read fun batch hbatch ↦ Act.leads_offerAll _ _ fun poured hpoured ↦ ?_
  rw [hsingle]
  rw [hbatch] at hpoured
  exact ⟨rfl, kept, poured, rfl, hpoured⟩

/-- What becomes of a queue in a call of its writer among the steps of a consumer. -/
theorem shares_writer (hq : scene.queues[queue.index]? = some q) (thread : Option String)
    (counts : List Nat) :
    let call := ((writer queue : Role σ).perform .process thread).amid queue counts
    (call.run published scene).1 = (.ok (), .writer queue) ∧ ∃ q',
      (call.run published scene).2.1.queues[queue.index]? = some { q with queue := q' } ∧
      Transfer.Shares queue (readAt published scene.ports 0)
        (batchItems (readAt published scene.ports 1)) q.queue q'
        (call.transfers published scene) := by
  intro call
  obtain ⟨hresult, kept, poured, hoffers, hpoured⟩ :=
    leads_writer (σ := σ) published queue scene.ports thread counts scene rfl
  exact ⟨hresult, _, call.queue_run published hq, (call.obey_transfers published hq).shares hoffers
    hpoured⟩

/-- A writer by itself appends as much of what its inputs read as there is room for. -/
theorem scene_run_writer (hq : scene.queues[queue.index]? = some q) (thread : Option String) :
    (((writer queue : Role σ).perform .process thread).run published scene).2.1 =
      scene.setQueue queue (q.queue.appendAll
        (((readAt published scene.ports 0).toList ++
          batchItems (readAt published scene.ports 1)).take
            (q.queue.capacity - q.queue.size))) := by
  have honly := (writes_perform (σ := σ) published queue thread scene).only
  have hobey := ((writer queue : Role σ).perform .process thread).obey_transfers published hq
  have hqueues := ((writer queue : Role σ).perform .process thread).queues_run_of_only hq
    fun t ht ↦ (honly t ht).1
  obtain ⟨-, kept, poured, hoffers, hpoured⟩ :=
    leads_writer (σ := σ) published queue scene.ports thread [] scene rfl
  -- Nobody takes anything, so that the offers are all the transfers that there are.
  rw [Act.amid_nil, Act.offers, List.filter_eq_self.2 fun t ht ↦ (honly t ht).2] at hoffers
  rw [hoffers] at hobey hqueues
  rw [hpoured.foldl_leave_eq hobey] at hqueues
  have hports := (run_perform_writer (σ := σ) published queue thread scene).2
  exact congrArg₂ Scene.mk hports hqueues

/-- A writer alone appends as much of the single item and the batch as fits, in this order, and
drops the rest. If a consumer takes items between its steps, the batch still enters the queue up to
its first refusal and no further. -/
theorem writes_what_fits (published : κ → Option Datum)
    (hq : scene.queues[queue.index]? = some q) (thread : Option String) :
    let item := readAt published scene.ports 0
    let batch := batchItems (readAt published scene.ports 1)
    let call : Act ω (Except Stop Unit × Role σ) := (writer queue).perform .process thread
    ((call.run published scene).1 = (.ok (), .writer queue) ∧
      (call.run published scene).2.1 = scene.setQueue queue (q.queue.appendAll
        ((item.toList ++ batch).take (q.queue.capacity - q.queue.size)))) ∧
    ∀ counts, ((call.amid queue counts).run published scene).1 = (.ok (), .writer queue) ∧ ∃ q',
      ((call.amid queue counts).run published scene).2.1.queues[queue.index]? =
        some { q with queue := q' } ∧
      Transfer.Shares queue item batch q.queue q'
        ((call.amid queue counts).transfers published scene) :=
  ⟨⟨(run_perform_writer published queue thread scene).1, scene_run_writer hq thread⟩,
    shares_writer hq thread⟩

/-- A writer in front of a queue with room for one more item. -/
def crowded : Scene Bool Empty where
  ports := [.input ⟨.word, some false⟩, .input ⟨.list .word, some true⟩]
  queues := [⟨.word, [.word 1], 2⟩]

def supply : Bool → Option Datum
  | false => some (.word 2)
  | true => some (.list [.word 3, .word 4, .word 5])

/-- By itself the writer gets the single item in. A consumer that takes one item before the batch
and one behind the refusal of its second item makes room for the first item of the batch, but the
third one is not offered any more. -/
theorem crowded_writes :
    let call : Act Empty (Except Stop Unit × Role Demo.Node) := (writer ⟨0⟩).perform .process none
    crowded.queues[0]? = some ⟨.word, [.word 1], 2⟩ ∧
      ((call.run supply crowded).1 = (.ok (), .writer ⟨0⟩) ∧
        (call.run supply crowded).2.1 = crowded.setQueue ⟨0⟩ ⟨[.word 1, .word 2], 2⟩) ∧
      Transfer.Shares ⟨0⟩ (some (.word 2)) [.word 3, .word 4, .word 5] ⟨[.word 1], 2⟩
        ⟨[.word 3], 2⟩ ((call.amid ⟨0⟩ [0, 0, 0, 1, 0, 1]).transfers supply crowded) := by
  intro call
  have hqueue : crowded.queues[(⟨0⟩ : QueueId).index]? = some ⟨.word, [.word 1], 2⟩ := rfl
  obtain ⟨halone, hamid⟩ := writes_what_fits (σ := Demo.Node) supply hqueue none
  obtain ⟨-, q', hq', hshares⟩ := hamid [0, 0, 0, 1, 0, 1]
  obtain rfl : (⟨[.word 3], 2⟩ : Queue Datum) = q' :=
    congrArg DataQueue.queue (Option.some.inj hq')
  exact ⟨hqueue, halone, hshares⟩

end Role

end SignalFlow
