import SignalFlow.Queue
import Mathlib.Data.List.Induction
import Mathlib.Data.List.Nodup

/-!
# Watched queues as bounded lists

A watched queue is asked to put items in, to give them out, and to change its observers. Whatever it
was asked, it answers like a list that has room for so many items: it gives them out in the order in
which they came, and makes room by giving out the oldest one or refuses the new one. Its observers
are told of each item that arrives in the empty queue while they are registered, once, and of
nothing else.
-/

namespace SignalFlow.WatchedQueue

/-- What a queue is asked. Items can be shared with whoever puts them in. -/
inductive Request (α ω : Type) where
  | push (item : α)
  | pushShared (item : α)
  | tryPush (item : α)
  | tryPushShared (item : α)
  | pop
  | observe (observer : ω)
  | unobserve (observer : ω)
deriving DecidableEq, Repr

/-- What a queue says: the item put out by another one, whether an item was accepted, the item that
it hands back, the item taken out, or whether the observers were changed. -/
inductive Reply (α : Type) where
  | pushed (evicted : Option α)
  | tried (accepted : Bool)
  | offered (handedBack : Option α)
  | popped (item : Option α)
  | watched (outcome : Except WatchFault Unit)
deriving DecidableEq, Repr

/-- What comes of a request: the reply, the queue behind it, and those who are told. -/
structure Answer (α ω : Type) where
  reply : Reply α
  behind : WatchedQueue α ω
  told : List ω
deriving DecidableEq, Repr

variable {α β ω : Type} [DecidableEq ω] {w : WatchedQueue α ω} {room capacity : Nat} {item : α}
  {request : Request α ω} {requests past more : List (Request α ω)} {observer : ω}

/-- The answer to a change of the observers, which a fault prevents. -/
def Answer.ofChange (w : WatchedQueue α ω) :
    Except WatchFault (WatchedQueue α ω) → Answer α ω
  | .ok behind => ⟨.watched (.ok ()), behind, []⟩
  | .error fault => ⟨.watched (.error fault), w, []⟩

/-- The answer to a request. An item that a queue refuses is handed back only if it is shared. -/
def answer (w : WatchedQueue α ω) : Request α ω → Answer α ω
  | .push item | .pushShared item =>
    let (evicted, behind, told) := w.push item
    ⟨.pushed evicted, behind, told⟩
  | .tryPush item =>
    match w.tryPush? item with
    | some (behind, told) => ⟨.tried true, behind, told⟩
    | none => ⟨.tried false, w, []⟩
  | .tryPushShared item =>
    match w.tryPush? item with
    | some (behind, told) => ⟨.offered none, behind, told⟩
    | none => ⟨.offered (some item), w, []⟩
  | .pop => ⟨.popped w.pop.1, w.pop.2, []⟩
  | .observe observer => .ofChange w (w.observe observer)
  | .unobserve observer => .ofChange w (w.unobserve observer)

def after (w : WatchedQueue α ω) (requests : List (Request α ω)) : WatchedQueue α ω :=
  requests.foldl (fun w request ↦ (w.answer request).behind) w

/-- What is noted of the answers to a list of requests. -/
def noted (note : Request α ω → Answer α ω → List β) :
    WatchedQueue α ω → List (Request α ω) → List β
  | _, [] => []
  | w, request :: rest =>
    note request (w.answer request) ++ noted note (w.answer request).behind rest

omit [DecidableEq ω] in
/-- The item that a request brings into a queue that gives a reply. -/
def Request.accepted : Request α ω → Reply α → List α
  | .push item, _ | .pushShared item, _ => [item]
  | .tryPush item, .tried true | .tryPushShared item, .offered none => [item]
  | _, _ => []

/-- The item that leaves a queue that gives a reply. -/
def Reply.removed : Reply α → List α
  | .pushed (some item) | .popped (some item) => [item]
  | _ => []

def Reply.refuses : Reply α → Bool
  | .tried false | .offered (some _) | .watched (.error _) => true
  | _ => false

/-- All items that requests bring into a queue, in order. -/
def accepted (w : WatchedQueue α ω) (requests : List (Request α ω)) : List α :=
  w.noted (fun request answer ↦ request.accepted answer.reply) requests

/-- All items that leave a queue, in order. -/
def removed (w : WatchedQueue α ω) (requests : List (Request α ω)) : List α :=
  w.noted (fun _ answer ↦ answer.reply.removed) requests

/-- Whether an observer is registered behind a request, if it is or is not before it. -/
def Request.registers (observer : ω) (registered : Bool) : Request α ω → Bool
  | .observe other => registered || other = observer
  | .unobserve other => registered && other ≠ observer
  | _ => registered

/-- Whether requests register an observer and do not remove it again. -/
def registers (observer : ω) (requests : List (Request α ω)) : Bool :=
  requests.foldl (Request.registers observer) false

/-- How a list with some room answers a request: the items before it, the request, the reply, and
the items behind it. -/
inductive Serves (room : Nat) : List α → Request α ω → Reply α → List α → Prop
  | stored {items : List α} {item : α} {request : Request α ω}
      (hpush : request = .push item ∨ request = .pushShared item) (hroom : items.length < room) :
      Serves room items request (.pushed none) (items ++ [item])
  | evicted {oldest item : α} {rest : List α} {request : Request α ω}
      (hpush : request = .push item ∨ request = .pushShared item)
      (hfull : (oldest :: rest).length = room) :
      Serves room (oldest :: rest) request (.pushed (some oldest)) (rest ++ [item])
  | accepted {items : List α} {item : α} (hroom : items.length < room) :
      Serves room items (.tryPush item) (.tried true) (items ++ [item])
  | refused {items : List α} {item : α} (hfull : items.length = room) :
      Serves room items (.tryPush item) (.tried false) items
  | taken {items : List α} {item : α} (hroom : items.length < room) :
      Serves room items (.tryPushShared item) (.offered none) (items ++ [item])
  | handedBack {items : List α} {item : α} (hfull : items.length = room) :
      Serves room items (.tryPushShared item) (.offered (some item)) items
  | popped {oldest : α} {rest : List α} :
      Serves room (oldest :: rest) .pop (.popped (some oldest)) rest
  | nothing : Serves room [] .pop (.popped none) []
  | observed {items : List α} {observer : ω} (outcome : Except WatchFault Unit) :
      Serves room items (.observe observer) (.watched outcome) items
  | unobserved {items : List α} {observer : ω} (outcome : Except WatchFault Unit) :
      Serves room items (.unobserve observer) (.watched outcome) items

def append (w : WatchedQueue α ω) (item : α) : WatchedQueue α ω :=
  { w with queue := w.queue.append item }

/-- What a request can come to. -/
inductive Answers (w : WatchedQueue α ω) : Request α ω → Answer α ω → Prop
  | stored {request : Request α ω} {item : α}
      (hpush : request = .push item ∨ request = .pushShared item) (hroom : ¬ w.queue.isFull) :
      w.Answers request ⟨.pushed none, w.append item, w.told⟩
  | evicted {request : Request α ω} {item : α}
      (hpush : request = .push item ∨ request = .pushShared item) (hfull : w.queue.isFull) :
      w.Answers request ⟨.pushed w.queue.items.head?, w.pop.2.append item, w.told⟩
  | accepted {item : α} (hroom : ¬ w.queue.isFull) :
      w.Answers (.tryPush item) ⟨.tried true, w.append item, w.told⟩
  | refused {item : α} (hfull : w.queue.isFull) :
      w.Answers (.tryPush item) ⟨.tried false, w, []⟩
  | taken {item : α} (hroom : ¬ w.queue.isFull) :
      w.Answers (.tryPushShared item) ⟨.offered none, w.append item, w.told⟩
  | handedBack {item : α} (hfull : w.queue.isFull) :
      w.Answers (.tryPushShared item) ⟨.offered (some item), w, []⟩
  | popped : w.Answers .pop ⟨.popped w.queue.items.head?, w.pop.2, []⟩
  | observed {observer : ω} (hnew : observer ∉ w.observers) :
      w.Answers (.observe observer)
        ⟨.watched (.ok ()), { w with observers := w.observers ++ [observer] }, []⟩
  | alreadyObserved {observer : ω} (hmem : observer ∈ w.observers) :
      w.Answers (.observe observer) ⟨.watched (.error .alreadyObserving), w, []⟩
  | unobserved {observer : ω} (hmem : observer ∈ w.observers) :
      w.Answers (.unobserve observer)
        ⟨.watched (.ok ()), { w with observers := w.observers.erase observer }, []⟩
  | notObserved {observer : ω} (hnew : observer ∉ w.observers) :
      w.Answers (.unobserve observer) ⟨.watched (.error .notObserving), w, []⟩

theorem answers (w : WatchedQueue α ω) (request : Request α ω) :
    w.Answers request (w.answer request) := by
  have hpush (item : α) {request : Request α ω}
      (hrequest : request = .push item ∨ request = .pushShared item) :
      w.Answers request ⟨.pushed (w.push item).1, (w.push item).2.1, w.told⟩ := by
    simp only [push, Queue.push]
    split
    · next hfull => exact .evicted hrequest hfull
    · next hroom => exact .stored hrequest hroom
  cases request with
  | push item => exact hpush item (.inl rfl)
  | pushShared item => exact hpush item (.inr rfl)
  | tryPush item =>
    by_cases hfull : w.queue.isFull
    · simpa [answer, tryPush?, Queue.tryPush?, hfull] using Answers.refused hfull
    · simpa [answer, tryPush?, Queue.tryPush?, append, hfull] using Answers.accepted hfull
  | tryPushShared item =>
    by_cases hfull : w.queue.isFull
    · simpa [answer, tryPush?, Queue.tryPush?, hfull] using Answers.handedBack hfull
    · simpa [answer, tryPush?, Queue.tryPush?, append, hfull] using Answers.taken hfull
  | pop => exact .popped
  | observe observer =>
    simp only [answer, observe]
    split
    · next hmem => exact .alreadyObserved hmem
    · next hnew => exact .observed hnew
  | unobserve observer =>
    simp only [answer, unobserve]
    split
    · next hmem => exact .unobserved hmem
    · next hnew => exact .notObserved hnew

namespace Answers

variable {a : Answer α ω}

theorem capacity_eq (h : w.Answers request a) : a.behind.queue.capacity = w.queue.capacity := by
  cases h <;> rfl

/-- Those who are told are the observers if the queue was empty and is not any more. -/
theorem told_eq (h : w.Answers request a) :
    a.told = if w.queue.items = [] ∧ a.behind.queue.items ≠ [] then w.observers else [] := by
  cases h with
  | popped =>
    cases hitems : w.queue.items <;> simp [pop, Queue.pop, hitems]
  | _ => simp [told, append, pop, Queue.append, Queue.pop, Queue.isEmpty]

theorem unchanged (h : w.Answers request a) (hrefuses : a.reply.refuses) :
    a.behind = w ∧ a.told = [] := by
  cases h with
  | refused | handedBack | alreadyObserved | notObserved => exact ⟨rfl, rfl⟩
  | _ => cases hrefuses

/-- An observer is registered behind a request if the request leaves it registered. -/
theorem mem_observers (h : w.Answers request a) (hnodup : w.observers.Nodup) (observer : ω) :
    observer ∈ a.behind.observers ↔
      request.registers observer (observer ∈ w.observers) = true := by
  cases h with
  | stored hpush | evicted hpush =>
    rcases hpush with rfl | rfl <;> exact decide_eq_true_iff.symm
  | accepted | refused | taken | handedBack | popped => exact decide_eq_true_iff.symm
  | observed | alreadyObserved | notObserved => grind [Request.registers]
  | unobserved =>
    simp only [Request.registers, hnodup.mem_erase_iff]
    grind

theorem nodup_observers (h : w.Answers request a) (hnodup : w.observers.Nodup) :
    a.behind.observers.Nodup := by
  cases h with
  | observed hnew => exact List.nodup_append_comm.1 (hnodup.cons hnew)
  | @unobserved observer => exact hnodup.erase observer
  | _ => exact hnodup

end Answers

/-- A queue with some room and not too many items, that has each observer once. -/
structure Sound (w : WatchedQueue α ω) (room : Nat) : Prop where
  capacity : w.queue.capacity = room
  pos : 0 < room
  size_le : w.queue.items.length ≤ room
  nodup : w.observers.Nodup

omit [DecidableEq ω] in
theorem sound_ofCapacity (capacity : Nat) :
    Sound (ofCapacity capacity : WatchedQueue α ω) (max capacity 1) :=
  ⟨rfl, Nat.le_max_right capacity 1, Nat.zero_le _, List.nodup_nil⟩

namespace Serves

variable {items items' : List α} {reply : Reply α}

omit [DecidableEq ω] in
theorem length_le (h : Serves room items request reply items')
    (hlength : items.length ≤ room) : items'.length ≤ room := by
  cases h <;> grind

omit [DecidableEq ω] in
/-- Nothing is lost and nothing comes from nowhere, and the oldest goes first. -/
theorem conserves (h : Serves room items request reply items') :
    items ++ request.accepted reply = reply.removed ++ items' := by
  cases h with
  | stored hpush | evicted hpush => rcases hpush with rfl | rfl <;> rfl
  | _ => simp [Request.accepted, Reply.removed]

end Serves

namespace Sound

omit [DecidableEq ω] in
theorem isFull_iff (h : w.Sound room) : w.queue.isFull = true ↔ w.queue.items.length = room := by
  rw [Queue.isFull, h.capacity, decide_eq_true_iff]
  exact ⟨fun hle ↦ Nat.le_antisymm h.size_le hle, fun heq ↦ Nat.le_of_eq heq.symm⟩

omit [DecidableEq ω] in
theorem length_lt (h : w.Sound room) (hroom : ¬ w.queue.isFull = true) :
    w.queue.items.length < room :=
  Nat.lt_of_le_of_ne h.size_le fun heq ↦ hroom (h.isFull_iff.2 heq)

/-- A sound queue answers like a list. -/
theorem serves (h : w.Sound room) {a : Answer α ω} (ha : w.Answers request a) :
    Serves room w.queue.items request a.reply a.behind.queue.items := by
  cases ha with
  | stored hpush hroom => exact .stored hpush (h.length_lt hroom)
  | evicted hpush hfull =>
    have hlength := h.isFull_iff.1 hfull
    cases hitems : w.queue.items with
    | nil =>
      rw [hitems] at hlength
      exact absurd hlength (Nat.ne_of_lt h.pos)
    | cons oldest rest =>
      rw [hitems] at hlength
      simpa [append, pop, Queue.pop, Queue.append, hitems] using .evicted hpush hlength
  | accepted hroom => exact .accepted (h.length_lt hroom)
  | refused hfull => exact .refused (h.isFull_iff.1 hfull)
  | taken hroom => exact .taken (h.length_lt hroom)
  | handedBack hfull => exact .handedBack (h.isFull_iff.1 hfull)
  | popped =>
    change Serves room w.queue.items .pop (.popped w.queue.items.head?) w.queue.items.tail
    cases w.queue.items with
    | nil => exact .nothing
    | cons oldest rest => exact .popped
  | observed | alreadyObserved => exact .observed _
  | unobserved | notObserved => exact .unobserved _

/-- An observer is told once of an item that arrives in the empty queue while it is registered. -/
theorem count_told (h : w.Sound room) (request : Request α ω) (observer : ω) :
    (w.answer request).told.count observer =
      if w.queue.items = [] ∧ (w.answer request).behind.queue.items ≠ [] ∧ observer ∈ w.observers
      then 1 else 0 := by
  rw [(w.answers request).told_eq]
  by_cases harrives : w.queue.items = [] ∧ (w.answer request).behind.queue.items ≠ []
  · rw [if_pos harrives, h.nodup.count]
    simp [harrives]
  · rw [if_neg harrives, List.count_nil, if_neg fun hall ↦ harrives ⟨hall.1, hall.2.1⟩]

theorem answer (h : w.Sound room) (request : Request α ω) :
    (w.answer request).behind.Sound room where
  capacity := (w.answers request).capacity_eq.trans h.capacity
  pos := h.pos
  size_le := (h.serves (w.answers request)).length_le h.size_le
  nodup := (w.answers request).nodup_observers h.nodup

end Sound

/-! ## Any number of requests -/

theorem after_concat (w : WatchedQueue α ω) (past : List (Request α ω)) (request : Request α ω) :
    w.after (past ++ [request]) = ((w.after past).answer request).behind :=
  List.foldl_append

theorem Sound.after (h : w.Sound room) (requests : List (Request α ω)) :
    (w.after requests).Sound room := by
  induction requests generalizing w with
  | nil => exact h
  | cons request rest ih => exact ih (h.answer request)

/-- What came into a queue is what left it, and behind that what is in it. -/
theorem Sound.conserves (h : w.Sound room) (requests : List (Request α ω)) :
    w.queue.items ++ w.accepted requests =
      w.removed requests ++ (w.after requests).queue.items := by
  induction requests generalizing w with
  | nil => exact List.append_nil _
  | cons request rest ih =>
    have hstep := (h.serves (w.answers request)).conserves
    have hrest := ih (h.answer request)
    let next := (w.answer request).behind
    calc
      w.queue.items ++ (request.accepted (w.answer request).reply ++ next.accepted rest) =
          ((w.answer request).reply.removed ++ next.queue.items) ++ next.accepted rest := by
        rw [← List.append_assoc, hstep]
      _ = (w.answer request).reply.removed ++
            (next.removed rest ++ (next.after rest).queue.items) := by
        rw [List.append_assoc, hrest]
      _ = ((w.answer request).reply.removed ++ next.removed rest) ++
            (next.after rest).queue.items := (List.append_assoc ..).symm

theorem mem_observers_after (capacity : Nat) (past : List (Request α ω)) (observer : ω) :
    observer ∈ ((ofCapacity capacity : WatchedQueue α ω).after past).observers ↔
      registers observer past = true := by
  induction past using List.reverseRecOn with
  | nil => simp [after, ofCapacity, registers]
  | append_singleton past request ih =>
    have hsound := (sound_ofCapacity (α := α) (ω := ω) capacity).after past
    let w : WatchedQueue α ω := (ofCapacity capacity).after past
    have hpast : decide (observer ∈ w.observers) = registers observer past :=
      Bool.eq_iff_iff.2 (decide_eq_true_iff.trans ih)
    calc
      observer ∈ ((ofCapacity capacity : WatchedQueue α ω).after (past ++ [request])).observers ↔
          request.registers observer (decide (observer ∈ w.observers)) = true := by
        rw [after_concat, (answers _ request).mem_observers hsound.nodup]
      _ ↔ registers observer (past ++ [request]) = true := by
        rw [hpast, registers, registers, List.foldl_append]
        rfl

/-- A queue is a bounded list with observers. Behind any requests it has not too many items, which
are those that came in and have not left, and it answers the next request as the list does. A
refusal changes nothing. An observer is told once of an item that arrives in the empty queue while
it is registered, and of nothing else. -/
structure BoundedList (w : WatchedQueue α ω) (room : Nat) (past : List (Request α ω)) : Prop where
  size_le : (w.after past).queue.size ≤ room
  conserved : w.accepted past = w.removed past ++ (w.after past).queue.items
  serves : ∀ request : Request α ω, Serves room (w.after past).queue.items request
    ((w.after past).answer request).reply ((w.after past).answer request).behind.queue.items
  refuses : ∀ request : Request α ω, ((w.after past).answer request).reply.refuses →
    ((w.after past).answer request).behind = w.after past ∧
      ((w.after past).answer request).told = []
  told : ∀ (request : Request α ω) (observer : ω),
    ((w.after past).answer request).told.count observer =
      if (w.after past).queue.items = [] ∧
          ((w.after past).answer request).behind.queue.items ≠ [] ∧ registers observer past
      then 1 else 0

/-- A queue of some capacity is a bounded list with room for so many items, or for one. -/
theorem boundedList_after (capacity : Nat) (past : List (Request α ω)) :
    (ofCapacity capacity : WatchedQueue α ω).BoundedList (max capacity 1) past := by
  have hfresh := sound_ofCapacity (α := α) (ω := ω) capacity
  have hsound := hfresh.after past
  refine ⟨hsound.size_le, hfresh.conserves past, fun request ↦ hsound.serves (answers _ request),
    fun request ↦ (answers _ request).unchanged, fun request observer ↦ ?_⟩
  rw [hsound.count_told]
  simp only [mem_observers_after]

end SignalFlow.WatchedQueue
