import SignalFlow.Proofs.Node.Programs
import SignalFlow.Proofs.Node.Trace

/-!
# What a call moves through queues

The transfers of a call tell which items it offered to queues and took from them, and what came of
it. An offer is accepted exactly if the queue has room, and what is taken is the oldest item. So
what was taken from a queue, followed by what the queue holds, is what it held before, followed by
what was accepted.
-/

namespace SignalFlow

/-- What a call does with a queue, and what comes of it. -/
inductive Transfer where
  | offer (queue : QueueId) (item : Datum) (accepted : Bool)
  | take (queue : QueueId) (item : Option Datum)

namespace Transfer

def queue : Transfer → QueueId
  | .offer queue _ _ | .take queue _ => queue

def isOffer : Transfer → Bool
  | .offer _ _ _ => true
  | .take _ _ => false

/-- Whether a queue refuses an item. -/
def isRefused : Transfer → Bool
  | .offer _ _ accepted => !accepted
  | .take _ _ => false

def offered (queue : QueueId) (ts : List Transfer) : List Datum :=
  ts.filterMap fun
    | .offer id item _ => if id = queue then some item else none
    | .take _ _ => none

def accepted (queue : QueueId) (ts : List Transfer) : List Datum :=
  ts.filterMap fun
    | .offer id item true => if id = queue then some item else none
    | .offer _ _ false | .take _ _ => none

def taken (queue : QueueId) (ts : List Transfer) : List Datum :=
  ts.filterMap fun
    | .take id item => if id = queue then item else none
    | .offer _ _ _ => none

/-- What a transfer leaves of a queue. -/
def leave (queue : QueueId) (q : Queue Datum) : Transfer → Queue Datum
  | .offer id item true => if id = queue then q.append item else q
  | .offer _ _ false => q
  | .take id _ => if id = queue then q.pop.2 else q

/-- Whether items are refused exactly where a queue is full, and taken from its head. -/
def Obey (queue : QueueId) (q : Queue Datum) : List Transfer → Prop
  | [] => True
  | t :: rest =>
    (∀ item accepted, t = .offer queue item accepted → accepted = !q.isFull) ∧
      (∀ item, t = .take queue item → item = q.items.head?) ∧ Obey queue (leave queue q t) rest

variable {queue : QueueId} {q : Queue Datum} {t : Transfer} {ts before behind : List Transfer}
  {item : Datum}

theorem offered_append (queue : QueueId) (before behind : List Transfer) :
    offered queue (before ++ behind) = offered queue before ++ offered queue behind :=
  List.filterMap_append

theorem accepted_append (queue : QueueId) (before behind : List Transfer) :
    accepted queue (before ++ behind) = accepted queue before ++ accepted queue behind :=
  List.filterMap_append

theorem taken_append (queue : QueueId) (before behind : List Transfer) :
    taken queue (before ++ behind) = taken queue before ++ taken queue behind :=
  List.filterMap_append

theorem taken_singleton (queue : QueueId) (item : Option Datum) :
    taken queue [.take queue item] = item.toList := by
  cases item <;> simp [taken]

/-! Transfers of other queues do not count. -/

theorem accepted_eq_nil (h : ∀ t ∈ ts, t.queue ≠ queue) : accepted queue ts = [] := by
  refine List.filterMap_eq_nil_iff.2 fun t ht ↦ ?_
  cases t with
  | offer id item accepted =>
    cases accepted with
    | true => exact if_neg (h _ ht)
    | false => rfl
  | take id item => rfl

theorem taken_eq_nil (h : ∀ t ∈ ts, t.queue ≠ queue) : taken queue ts = [] := by
  refine List.filterMap_eq_nil_iff.2 fun t ht ↦ ?_
  cases t with
  | offer id item accepted => rfl
  | take id item => exact if_neg (h _ ht)

theorem accepted_eq_nil_of_take (h : ∀ t ∈ ts, t.queue = queue → t.isOffer = false) :
    accepted queue ts = [] := by
  refine List.filterMap_eq_nil_iff.2 fun t ht ↦ ?_
  cases t with
  | offer id item accepted =>
    cases accepted with
    | true => exact if_neg fun heq ↦ Bool.noConfusion (h _ ht heq)
    | false => rfl
  | take id item => rfl

theorem taken_eq_nil_of_offer (h : ∀ t ∈ ts, t.queue = queue → t.isOffer = true) :
    taken queue ts = [] := by
  refine List.filterMap_eq_nil_iff.2 fun t ht ↦ ?_
  cases t with
  | offer id item accepted => rfl
  | take id item => exact if_neg fun heq ↦ Bool.noConfusion (h _ ht heq)

theorem accepted_eq_offered (h : ∀ t ∈ ts, t.isRefused = false) :
    accepted queue ts = offered queue ts := by
  refine List.filterMap_congr fun t ht ↦ ?_
  cases t with
  | offer id item accepted =>
    cases accepted with
    | true => rfl
    | false => cases h _ ht
  | take id item => rfl

theorem leave_of_ne (h : t.queue ≠ queue) (q : Queue Datum) : leave queue q t = q := by
  cases t with
  | offer id item accepted =>
    cases accepted with
    | true => exact if_neg h
    | false => rfl
  | take id item => exact if_neg h

theorem foldl_leave_of_ne (h : ∀ t ∈ ts, t.queue ≠ queue) (q : Queue Datum) :
    ts.foldl (leave queue) q = q := by
  induction ts with
  | nil => rfl
  | cons t rest ih =>
    obtain ⟨ht, hrest⟩ := List.forall_mem_cons.1 h
    rw [List.foldl_cons, leave_of_ne ht, ih hrest]

theorem capacity_leave (queue : QueueId) (q : Queue Datum) (t : Transfer) :
    (leave queue q t).capacity = q.capacity := by
  cases t with
  | offer id item accepted =>
    cases accepted with
    | true =>
      simp only [leave]
      split <;> rfl
    | false => rfl
  | take id item =>
    simp only [leave]
    split <;> rfl

theorem capacity_foldl_leave (queue : QueueId) (ts : List Transfer) (q : Queue Datum) :
    (ts.foldl (leave queue) q).capacity = q.capacity := by
  induction ts generalizing q with
  | nil => rfl
  | cons t rest ih => exact (ih _).trans (capacity_leave queue q t)

namespace Obey

theorem append (h : Obey queue q before)
    (h' : Obey queue (before.foldl (leave queue) q) behind) : Obey queue q (before ++ behind) := by
  induction before generalizing q with
  | nil => exact h'
  | cons t rest ih => exact ⟨h.1, h.2.1, ih h.2.2 h'⟩

theorem of_ne (h : ∀ t ∈ ts, t.queue ≠ queue) (q : Queue Datum) : Obey queue q ts := by
  induction ts generalizing q with
  | nil => trivial
  | cons t rest ih =>
    obtain ⟨ht, hrest⟩ := List.forall_mem_cons.1 h
    refine ⟨?_, ?_, ih hrest _⟩
    · rintro item accepted rfl
      exact absurd rfl ht
    · rintro item rfl
      exact absurd rfl ht

theorem of_append_left (h : Obey queue q (before ++ behind)) : Obey queue q before := by
  induction before generalizing q with
  | nil => trivial
  | cons t rest ih => exact ⟨h.1, h.2.1, ih h.2.2⟩

theorem of_append (h : Obey queue q (before ++ behind)) :
    Obey queue (before.foldl (leave queue) q) behind := by
  induction before generalizing q with
  | nil => exact h
  | cons t rest ih => exact ih h.2.2

theorem balance_cons (h : Obey queue q (t :: ts)) :
    taken queue [t] ++ (leave queue q t).items = q.items ++ accepted queue [t] := by
  by_cases hqueue : t.queue = queue
  · cases t with
    | offer id item accepted =>
      cases hqueue
      cases accepted with
      | true => simp [taken, Transfer.accepted, leave, Transfer.queue, Queue.append]
      | false => simp [taken, Transfer.accepted, leave]
    | take id item =>
      cases hqueue
      obtain rfl := h.2.1 item rfl
      cases hitems : q.items with
      | nil => simp [taken, Transfer.accepted, leave, Transfer.queue, Queue.pop, hitems]
      | cons first rest => simp [taken, Transfer.accepted, leave, Transfer.queue, Queue.pop, hitems]
  · have hother : ∀ t' ∈ [t], t'.queue ≠ queue := by simpa using hqueue
    rw [taken_eq_nil hother, accepted_eq_nil hother, leave_of_ne hqueue, List.append_nil,
      List.nil_append]

/-- What was taken and what the queue holds are what it held before and what was accepted. -/
theorem balance (h : Obey queue q ts) :
    taken queue ts ++ (ts.foldl (leave queue) q).items = q.items ++ accepted queue ts := by
  induction ts generalizing q with
  | nil => exact (List.append_nil q.items).symm
  | cons t rest ih =>
    calc taken queue (t :: rest) ++ (rest.foldl (leave queue) (leave queue q t)).items
      _ = taken queue [t] ++
          (taken queue rest ++ (rest.foldl (leave queue) (leave queue q t)).items) := by
        rw [← List.append_assoc, ← taken_append, List.singleton_append]
      _ = (taken queue [t] ++ (leave queue q t).items) ++ accepted queue rest := by
        rw [ih h.2.2, List.append_assoc]
      _ = q.items ++ accepted queue (t :: rest) := by
        rw [h.balance_cons, List.append_assoc, ← accepted_append, List.singleton_append]

/-- A queue never holds more than it can. -/
theorem size_le (h : Obey queue q ts) (hq : q.size ≤ q.capacity) :
    (ts.foldl (leave queue) q).size ≤ q.capacity := by
  induction ts generalizing q with
  | nil => exact hq
  | cons t rest ih =>
    rw [← capacity_leave queue q t]
    refine ih h.2.2 ?_
    rw [capacity_leave]
    by_cases hqueue : t.queue = queue
    · cases t with
      | offer id item accepted =>
        cases hqueue
        cases accepted with
        | true =>
          have hroom := h.1 item true rfl
          have hlt : q.size < q.capacity := by simpa [Queue.isFull] using hroom
          have hle : q.size + 1 ≤ q.capacity := hlt
          simpa [leave, Transfer.queue, Queue.append, Queue.size] using hle
        | false => exact hq
      | take id item =>
        cases hqueue
        have hpop : q.pop.2.size ≤ q.size := by simp [Queue.pop, Queue.size]
        simpa [leave, Transfer.queue] using Nat.le_trans hpop hq
    · rwa [leave_of_ne hqueue]

/-- An item is refused only when the queue holds as many items as it can. -/
theorem size_of_refused (h : Obey queue q (before ++ .offer queue item false :: behind))
    (hq : q.size ≤ q.capacity) : (before.foldl (leave queue) q).size = q.capacity := by
  have hfull := h.of_append.1 item false rfl
  have hle := h.of_append_left.size_le hq
  have hge : q.capacity ≤ (before.foldl (leave queue) q).size := by
    simpa [Queue.isFull, capacity_foldl_leave] using hfull
  exact Nat.le_antisymm hle hge

end Obey

end Transfer

/-! ## Transfers of a call -/

namespace Act

variable {κ ω α β : Type} {queue : QueueId}

/-- What a call does with queues when it is carried out. -/
def transfers (published : κ → Option Datum) : Act ω α → Scene κ ω → List Transfer
  | done _, _ => []
  | read port next, scene =>
    (next ((scene.input port).bind (·.read published))).transfers published scene
  | hasData port next, scene =>
    (next ((scene.input port).bind (·.hasData published))).transfers published scene
  | store port datum next, scene =>
    match scene.store port datum with
    | .error fault => (next (.error fault)).transfers published scene
    | .ok scene => (next (.ok ())).transfers published scene
  | clear port next, scene => (next ()).transfers published (scene.clear port)
  | clearAll next, scene => (next ()).transfers published scene.clearAll
  | value port next, scene =>
    (next ((scene.control port).map ControlPort.value)).transfers published scene
  | set port v next, scene =>
    (next (scene.set port v).2.2).transfers published (scene.set port v).1
  | offer queue item next, scene =>
    .offer queue item (scene.offer queue item).2 ::
      (next (scene.offer queue item).2).transfers published (scene.offer queue item).1
  | take queue next, scene =>
    .take queue (scene.take queue).2 ::
      (next (scene.take queue).2).transfers published (scene.take queue).1
  | look queue next, scene => (next (scene.shape queue)).transfers published scene
  | report _ next, scene => (next ()).transfers published scene

variable (published : κ → Option Datum)

theorem transfers_andThen (act : Act ω α) (more : α → Act ω β) (scene : Scene κ ω) :
    (act.andThen more).transfers published scene = act.transfers published scene ++
      (more (act.run published scene).1).transfers published (act.run published scene).2.1 := by
  induction act generalizing scene with
  | done result => rfl
  | read _ _ ih | hasData _ _ ih | value _ _ ih | look _ _ ih | report _ _ ih => exact ih _ scene
  | clear _ _ ih | clearAll _ ih | set _ _ _ ih => exact ih _ _
  | store port value next ih =>
    simp only [andThen, transfers, run]
    cases scene.store port value with
    | error fault => exact ih _ scene
    | ok scene' => exact ih _ scene'
  | offer queue item next ih => exact congrArg _ (ih _ _)
  | take queue next ih => exact congrArg _ (ih _ _)

/-- A call makes transfers with the queues only that it may use. -/
theorem Within.uses_transfers {reach : Reach} {post : α → Prop} {act : Act ω α}
    (h : act.Within reach post) (scene : Scene κ ω) :
    ∀ t ∈ act.transfers published scene, reach.uses t.queue := by
  induction act generalizing scene with
  | done result => nofun
  | read _ _ ih | hasData _ _ ih | value _ _ ih | clear _ _ ih | clearAll _ ih => exact ih _ (h _) _
  | report _ _ ih => exact ih _ (h _) scene
  | look _ _ ih => exact ih _ (h.2 _) scene
  | set _ _ _ ih => exact ih _ (h.2 _) _
  | store _ _ _ ih =>
    simp only [transfers]
    split
    · exact ih _ (h _) scene
    · exact ih _ (h _) _
  | offer queue item next ih => exact List.forall_mem_cons.2 ⟨h.1, ih _ (h.2 _) _⟩
  | take queue next ih => exact List.forall_mem_cons.2 ⟨h.1, ih _ (h.2 _) _⟩

/-- Which transfers a call makes depends on the ports of its node, on what the sources of these hold
and on the queues that it may use. -/
theorem Within.transfers_congr {reach : Reach} {post : α → Prop} {act : Act ω α}
    {published' : κ → Option Datum} {scene scene' : Scene κ ω} (h : act.Within reach post)
    (halike : scene.Alike reach.uses scene')
    (hpublished : ∀ index source, sources scene.ports index = some source →
      published' source = published source) :
    act.transfers published' scene' = act.transfers published scene := by
  induction act generalizing scene scene' with
  | done result => rfl
  | read port next ih =>
    simp only [transfers]
    rw [halike.read hpublished]
    exact ih _ (h _) halike hpublished
  | hasData port next ih =>
    simp only [transfers]
    rw [halike.hasData hpublished]
    exact ih _ (h _) halike hpublished
  | value port next ih =>
    simp only [transfers]
    rw [halike.control]
    exact ih _ (h _) halike hpublished
  | report notice next ih => exact ih _ (h _) halike hpublished
  | look queue next ih =>
    have hshape : scene'.shape queue = scene.shape queue := by
      rw [Scene.shape, halike.queues queue h.1, Scene.shape]
    simp only [transfers]
    rw [hshape]
    exact ih _ (h.2 _) halike hpublished
  | store port datum next ih =>
    simp only [transfers]
    cases hstore : scene.store port datum with
    | error fault =>
      rw [halike.store_error hstore]
      exact ih _ (h _) halike hpublished
    | ok stored =>
      obtain ⟨stored', hstore', halike'⟩ := halike.store hstore
      rw [hstore']
      refine ih _ (h _) halike' ?_
      rwa [sources_congr (Scene.frames_store hstore)]
  | clear port next ih =>
    refine ih _ (h _) ⟨?_, halike.queues⟩ ?_
    · rw [Scene.clear, halike.ports, Scene.clear]
    · rwa [Scene.clear, sources_congr (frames_modify_clear scene.ports port)]
  | clearAll next ih =>
    refine ih _ (h _) ⟨?_, halike.queues⟩ ?_
    · rw [Scene.clearAll, halike.ports, Scene.clearAll]
    · rwa [Scene.clearAll, sources_map_clear]
  | set port v next ih =>
    obtain ⟨halike', hresult⟩ := halike.set port v
    simp only [transfers]
    rw [hresult]
    refine ih _ (h.2 _) halike' ?_
    rwa [sources_congr (scene.frames_setValue port v)]
  | offer queue item next ih =>
    obtain ⟨halike', hresult⟩ := halike.offer h.1 item
    simp only [transfers]
    rw [hresult]
    refine congrArg _ (ih _ (h.2 _) halike' ?_)
    rwa [scene.ports_offer]
  | take queue next ih =>
    obtain ⟨halike', hresult⟩ := halike.take h.1
    simp only [transfers]
    rw [hresult]
    refine congrArg _ (ih _ (h.2 _) halike' ?_)
    rwa [scene.ports_take]

end Act

namespace Scene

variable {κ ω : Type} {scene : Scene κ ω} {queue : QueueId} {q : DataQueue}

/-- An item is accepted exactly if there is room. -/
theorem accepted_offer (h : scene.queues[queue.index]? = some q) (item : Datum) :
    (scene.offer queue item).2 = !q.queue.isFull := by
  unfold offer
  rw [h, Option.bind_some, Queue.tryPush?]
  cases q.queue.isFull <;> rfl

theorem queue_offer (h : scene.queues[queue.index]? = some q) (id : QueueId) (item : Datum) :
    (scene.offer id item).1.queues[queue.index]? = some { q with
      queue := Transfer.leave queue q.queue (.offer id item (scene.offer id item).2) } := by
  by_cases hid : id = queue
  · subst hid
    rw [accepted_offer h]
    unfold offer
    rw [h, Option.bind_some, Queue.tryPush?]
    cases hfull : q.queue.isFull with
    | true => exact h
    | false =>
      refine (queues_setQueue scene id id _).trans ?_
      rw [if_pos rfl, h]
      simp [Transfer.leave]
  · rw [queues_offer_of_ne scene item hid, Transfer.leave_of_ne (t := .offer ..) hid]
    exact h

theorem taken_take (h : scene.queues[queue.index]? = some q) :
    (scene.take queue).2 = q.queue.items.head? := by
  unfold take
  rw [h]
  rfl

theorem queue_take (h : scene.queues[queue.index]? = some q) (id : QueueId) :
    (scene.take id).1.queues[queue.index]? = some { q with
      queue := Transfer.leave queue q.queue (.take id (scene.take id).2) } := by
  by_cases hid : id = queue
  · subst hid
    unfold take
    rw [h]
    refine (queues_setQueue scene id id _).trans ?_
    rw [if_pos rfl, h]
    simp [Transfer.leave]
  · rw [queues_take_of_ne scene hid, Transfer.leave_of_ne (t := .take ..) hid]
    exact h

end Scene

namespace Act

variable {κ ω α : Type} {queue : QueueId} {q : DataQueue} (published : κ → Option Datum)

/-- What a call leaves of a queue is what the queue held before, changed by the transfers. -/
theorem queue_run (act : Act ω α) {scene : Scene κ ω}
    (h : scene.queues[queue.index]? = some q) :
    (act.run published scene).2.1.queues[queue.index]? = some { q with
      queue := (act.transfers published scene).foldl (Transfer.leave queue) q.queue } := by
  induction act generalizing scene q with
  | done result => exact h
  | read _ _ ih | hasData _ _ ih | value _ _ ih | look _ _ ih | report _ _ ih => exact ih _ h
  | clear _ _ ih | clearAll _ ih => exact ih _ h
  | set port v next ih =>
    exact ih _ ((congrArg (·[queue.index]?) (scene.queues_set port v)).trans h)
  | store port value next ih =>
    simp only [run, transfers]
    cases hstore : scene.store port value with
    | error fault => exact ih _ h
    | ok scene' => exact ih _ ((congrArg (·[queue.index]?) (Scene.queues_store hstore)).trans h)
  | offer id item next ih => exact ih _ (Scene.queue_offer h id item)
  | take id next ih => exact ih _ (Scene.queue_take h id)

/-- In a call items are refused exactly where a queue is full, and taken from its head. -/
theorem obey_transfers (act : Act ω α) {scene : Scene κ ω}
    (h : scene.queues[queue.index]? = some q) :
    Transfer.Obey queue q.queue (act.transfers published scene) := by
  induction act generalizing scene q with
  | done result => trivial
  | read _ _ ih | hasData _ _ ih | value _ _ ih | look _ _ ih | report _ _ ih => exact ih _ h
  | clear _ _ ih | clearAll _ ih => exact ih _ h
  | set port v next ih =>
    exact ih _ ((congrArg (·[queue.index]?) (scene.queues_set port v)).trans h)
  | store port value next ih =>
    simp only [transfers]
    split
    · exact ih _ h
    · next hstore => exact ih _ ((congrArg (·[queue.index]?) (Scene.queues_store hstore)).trans h)
  | offer id item next ih =>
    refine ⟨?_, nofun, ih _ (Scene.queue_offer h id item)⟩
    rintro _ _ ⟨⟩
    exact Scene.accepted_offer h item
  | take id next ih =>
    refine ⟨nofun, ?_, ih _ (Scene.queue_take h id)⟩
    rintro _ ⟨⟩
    exact Scene.taken_take h

end Act

end SignalFlow
