import SignalFlow.Proofs.Graph.Isolation
import SignalFlow.Proofs.Graph.Subgraphs

/-!
# Schedules make no difference

A thread waits for data that feeds it, and otherwise notices of other threads only the items that
they have put into the queue that feeds it, in their order. So if no item is refused, the order in
which threads take their turns has no effect on what they compute: it decides how far each of them
comes, and nothing else.
-/

namespace SignalFlow

/-- Whether one of two lists continues the other one. -/
def Comparable {α : Type} (l l' : List α) : Prop :=
  l <+: l' ∨ l' <+: l

namespace Comparable

variable {α β : Type} {l l' : List α}

/-- Lists are comparable if they have the same at all places that both have. -/
theorem map {f : α → β} (h : ∀ (k : Nat) x y, l[k]? = some x → l'[k]? = some y → f y = f x) :
    Comparable (l.map f) (l'.map f) := by
  induction l generalizing l' with
  | nil => exact .inl List.nil_prefix
  | cons x l ih =>
    cases l' with
    | nil => exact .inr List.nil_prefix
    | cons y l' =>
      have hhead : f y = f x := h 0 x y rfl rfl
      have htail := ih fun k x y hx hy ↦ h (k + 1) x y hx hy
      rw [List.map_cons, List.map_cons, hhead]
      exact htail.imp (List.cons_prefix_cons.2 ⟨rfl, ·⟩) (List.cons_prefix_cons.2 ⟨rfl, ·⟩)

theorem flatten {l l' : List (List α)} (h : Comparable l l') :
    Comparable l.flatten l'.flatten := by
  rcases h with ⟨more, rfl⟩ | ⟨more, rfl⟩
  · exact .inl ⟨more.flatten, List.flatten_append.symm⟩
  · exact .inr ⟨more.flatten, List.flatten_append.symm⟩

theorem eq_of_length (h : Comparable l l') (hlength : l.length = l'.length) : l = l' :=
  h.elim (·.eq_of_length hlength) fun h ↦ (h.eq_of_length hlength.symm).symm

theorem head?_eq (h : Comparable l l') (hl : l ≠ []) (hl' : l' ≠ []) : l'.head? = l.head? := by
  obtain ⟨x, rest, rfl⟩ := List.exists_cons_of_ne_nil hl
  obtain ⟨y, rest', rfl⟩ := List.exists_cons_of_ne_nil hl'
  rcases h with h | h
  · rw [(List.cons_prefix_cons.1 h).1, List.head?_cons, List.head?_cons]
  · rw [(List.cons_prefix_cons.1 h).1, List.head?_cons, List.head?_cons]

theorem append_iff {front : List α} :
    Comparable (front ++ l) (front ++ l') ↔ Comparable l l' :=
  or_congr (List.prefix_append_right_inj front) (List.prefix_append_right_inj front)

end Comparable

namespace Graph

open Transfer

variable {σ ω : Type} [Behaviour σ ω] {g x y : Graph σ ω} {t : Topology} {s p : SubgraphId}
  {ids first second past past' : List SubgraphId} {own : NodeId → QueueId → Prop} {run : Run}
  {queue : QueueId}

/-- A run in which nodes share nothing but ports and the queues of connections, and no item is
refused. -/
structure Lossless (g : Graph σ ω) (own : NodeId → QueueId → Prop) (ids : List SubgraphId) :
    Prop where
  isolated : ∀ past, past <+: ids → (g.turns past).Isolated own
  kept : NoneRefused (g.moved ids)

theorem Lossless.of_prefix (h : g.Lossless own ids) (hpast : past <+: ids) :
    g.Lossless own past where
  isolated past' hpast' := h.isolated past' (hpast'.trans hpast)
  kept := by
    obtain ⟨more, rfl⟩ := hpast
    have hkept := h.kept
    rw [moved, List.map_append, history_append, transfersIn_append] at hkept
    exact hkept.of_append.1

theorem Lossless.kept_turn (h : g.Lossless own ids) (hpast : past ++ [s] <+: ids) :
    NoneRefused ((g.turns past).movedBy s) := by
  have hkept := (h.of_prefix hpast).kept
  rw [moved_concat] at hkept
  exact hkept.of_append.2

/-- What is moved at one end of a queue is moved in the cycles of one subgraph. -/
theorem moved_eq_flatten {f : List Transfer → List Datum} (hnil : f [] = [])
    (happend : ∀ ts us, f (ts ++ us) = f ts ++ f us) (hg : g.Built t)
    (hother : ∀ past, past <+: ids → ∀ a ≠ p, f ((g.turns past).movedBy a) = []) :
    f (g.moved ids) = ((cyclesOf p ids g).map fun x ↦ f (x.movedBy p)).flatten := by
  induction ids using List.reverseRecOn with
  | nil => exact hnil
  | append_singleton past a ih =>
    have hpast : past <+: past ++ [a] := List.prefix_append past [a]
    have hturn : f ((g.turns past).movedBy a) =
        ((if a = p ∧ (g.turns past).executes p then [g.turns past] else []).map
          fun x ↦ f (x.movedBy p)).flatten := by
      by_cases ha : a = p
      · subst ha
        cases hexecutes : (g.turns past).executes a with
        | true => simp
        | false =>
          have hp := (hg.turns past).consistent.represents.wellFormed
          simp [(rests_of_not_executes hp hexecutes).1, hnil]
      · simp [ha, hother past hpast a ha]
    calc
      f (g.moved (past ++ [a])) = f (g.moved past) ++ f ((g.turns past).movedBy a) := by
        rw [moved_concat, happend]
      _ = ((cyclesOf p past g).map fun x ↦ f (x.movedBy p)).flatten ++
            ((if a = p ∧ (g.turns past).executes p then [g.turns past] else []).map
              fun x ↦ f (x.movedBy p)).flatten := by
        rw [ih fun past' hpast' ↦ hother past' (hpast'.trans hpast), hturn]
      _ = ((cyclesOf p (past ++ [a]) g).map fun x ↦ f (x.movedBy p)).flatten := by
        rw [cyclesOf_concat, List.map_append, List.flatten_append]

omit [Behaviour σ ω] in
theorem Kin.attends_iff (h : x.Kin y) {role : Role σ} (hidden : role.isHidden = true)
    {id : NodeId} : y.Attends own role queue id ↔ x.Attends own role queue id := by
  rw [Attends, role?_eq_some_iff_seen hidden, h.adapters, ← role?_eq_some_iff_seen hidden, Attends]

omit [Behaviour σ ω] in
theorem Kin.subgraphOf (h : x.Kin y) (hp : x.partition.Forest) : y.subgraphOf = x.subgraphOf :=
  funext (h.partition.sameDivision.of_eq hp)

/-- Items get accepted by a queue in the cycles of one subgraph only. -/
theorem exists_producer (hg : g.Built t) (hisolated : g.Isolated own) (queue : QueueId) :
    ∃ p, ∀ ids, g.Lossless own ids → Transfer.accepted queue (g.moved ids) =
      ((cyclesOf p ids g).map fun x ↦ Transfer.accepted queue (x.movedBy p)).flatten := by
  have hqueue : (Role.writer queue : Role σ).queue? = some queue := rfl
  obtain ⟨p, hp⟩ := hisolated.exists_home hg hqueue
  refine ⟨p, fun ids hids ↦ moved_eq_flatten rfl (Transfer.accepted_append queue) hg ?_⟩
  intro past hpast a hne
  have hkin := Kin.turns g past
  refine accepted_movedBy_eq_nil (hg.turns past) (hids.isolated past hpast) fun id hid ↦ ?_
  rw [hkin.subgraphOf hg.consistent.represents.wellFormed.toForest] at hid
  rw [hkin.attends_iff rfl]
  exact hp a hne id hid

/-- Items are taken from a queue in the cycles of the subgraph only that has a reader for it. -/
theorem taken_moved (hg : g.Built t) (hids : g.Lossless own ids) {id : NodeId}
    (hid : g.subgraphOf id = some s) (hrole : g.role? id = some (.reader queue)) :
    taken queue (g.moved ids) =
      ((cyclesOf s ids g).map fun x ↦ taken queue (x.movedBy s)).flatten := by
  have hqueue : (Role.reader queue : Role σ).queue? = some queue := rfl
  refine moved_eq_flatten rfl (taken_append queue) hg fun past hpast a hne ↦ ?_
  have hkin := Kin.turns g past
  refine taken_movedBy_eq_nil (hg.turns past) (hids.isolated past hpast) fun other hother ↦ ?_
  rw [hkin.subgraphOf hg.consistent.represents.wellFormed.toForest] at hother
  rw [hkin.attends_iff rfl]
  intro hattends
  have hisolated : g.Isolated own := hids.isolated [] List.nil_prefix
  obtain rfl := hisolated.eq_of_attends hg hqueue (.inr hrole) hattends
  exact hne (Option.some.inj (hother.symm.trans hid))

/-! ## Two runs -/

/-- Two runs in which each thread does the same in its cycles, as far as both come. -/
def Matches (g : Graph σ ω) (own : NodeId → QueueId → Prop) (first second : List SubgraphId) :
    Prop :=
  ∀ s (k : Nat) x y, (cyclesOf s first g)[k]? = some x → (cyclesOf s second g)[k]? = some y →
    SameTurn (g.partition.nodes s) own s x y

theorem Matches.accepted (h : g.Matches own first second) (hg : g.Built t)
    (hfirst : g.Lossless own first) (hsecond : g.Lossless own second) (queue : QueueId) :
    Comparable (Transfer.accepted queue (g.moved first))
      (Transfer.accepted queue (g.moved second)) := by
  obtain ⟨p, hp⟩ := exists_producer hg (hfirst.isolated [] List.nil_prefix) queue
  rw [hp first hfirst, hp second hsecond]
  exact (Comparable.map fun k x y hx hy ↦ (h p k x y hx hy).items.accepted queue).flatten

/-- In runs that match a reader has taken the same, if its thread has come equally far. -/
theorem Matches.taken (h : g.Matches own first second) (hg : g.Built t)
    (hfirst : g.Lossless own first) (hsecond : g.Lossless own second) {id : NodeId}
    (hid : g.subgraphOf id = some s) (hrole : g.role? id = some (.reader queue))
    (hlength : (cyclesOf s first g).length = (cyclesOf s second g).length) :
    Transfer.taken queue (g.moved first) = Transfer.taken queue (g.moved second) := by
  rw [taken_moved hg hfirst hid hrole, taken_moved hg hsecond hid hrole]
  congr 1
  refine (Comparable.map fun k x y hx hy ↦ (h s k x y hx hy).items.taken queue).eq_of_length ?_
  rw [List.length_map, List.length_map, hlength]

theorem moves_turns (hg : g.Built t) (queue : QueueId) (ids : List SubgraphId) :
    Moves queue g (g.moved ids) (g.turns ids) := by
  induction ids using List.reverseRecOn with
  | nil => exact .of_eq rfl
  | append_singleton past a ih =>
    rw [moved_concat, turns_concat]
    exact ih.trans (.apply (hg.turns past).consistent.represents.wellFormed fun _ ↦ nofun)

omit [Behaviour σ ω] in
theorem Built.items_ne_nil (hg : g.Built t) {b : Bridge} (hb : b ∈ t.bridges)
    (hreader : g.subgraphOf b.reader = some s) (hfed : g.isStarved s = false) {q : DataQueue}
    (hq : g.queue? b.queue = some q) : q.queue.items ≠ [] := by
  have hp := hg.consistent.represents.wellFormed
  have hinbound : g.partition.inbound s = some b.queue := by
    refine hg.consistent.fedBy.inbound_iff.2 ⟨b, hb, rfl, ?_, ?_⟩
    · rw [hp.find_of hreader]
      exact hreader
    · exact (mem_nodes_iff hp (hp.of_survives hreader)).2 hreader
  rw [isStarved, hinbound] at hfed
  simpa [queueShape, hq, DataQueue.shape, QueueShape.ofQueue, Queue.size] using hfed

/-- If a thread has come equally far in runs that match and has data, its readers find the same. -/
theorem Matches.oldest (h : g.Matches own first second) (hg : g.Built t)
    (hfirst : g.Lossless own first) (hsecond : g.Lossless own second) {id : NodeId}
    (hid : g.subgraphOf id = some s) (hrole : g.role? id = some (.reader queue))
    (hlength : (cyclesOf s first g).length = (cyclesOf s second g).length)
    (hfed : (g.turns first).isStarved s = false) (hfed' : (g.turns second).isStarved s = false) :
    (g.turns second).oldest queue = (g.turns first).oldest queue := by
  obtain ⟨b, hb, hend⟩ := hg.spanned.of_role? hrole rfl
  obtain ⟨hid', hrole'⟩ := hend.resolve_left fun hwriter ↦ by cases hwriter.2
  obtain rfl := Role.reader.inj hrole'
  obtain ⟨q, hq⟩ : ∃ q, g.queue? b.queue = some q :=
    ⟨_, List.getElem?_eq_getElem (hg.consistent.queue_lt b hb)⟩
  obtain ⟨hobey, hheld⟩ := moves_turns hg b.queue first q hq
  obtain ⟨hobey', hheld'⟩ := moves_turns hg b.queue second q hq
  -- The same was taken from what each queue has come to hold, and one got as much as the other.
  have hcomparable : Comparable (q.queue.items ++ Transfer.accepted b.queue (g.moved first))
      (q.queue.items ++ Transfer.accepted b.queue (g.moved second)) :=
    Comparable.append_iff.2 (h.accepted hg hfirst hsecond b.queue)
  rw [← hobey.balance, ← hobey'.balance, h.taken hg hfirst hsecond hid hrole hlength,
    Comparable.append_iff] at hcomparable
  have hreader {past : List SubgraphId} : (g.turns past).subgraphOf b.reader = some s := by
    rw [(Kin.turns g past).subgraphOf hg.consistent.represents.wellFormed.toForest, ← hid', hid]
  have hitems := (hg.turns first).items_ne_nil hb hreader hfed hheld
  have hitems' := (hg.turns second).items_ne_nil hb hreader hfed' hheld'
  rw [Graph.oldest, hheld', Graph.oldest, hheld]
  exact hcomparable.head?_eq hitems hitems'

omit [Behaviour σ ω] in
theorem Kin.duty_eq {run' : Run} (h : x.Kin y) (hrun : x.run? s = some run)
    (hrun' : y.run? s = some run') : duty run' = duty run := by
  have hfind (g : Graph σ ω) : (g.run? s).map duty = (g.duties.getD []).find? (·.1 == s) := by
    unfold Graph.run? Graph.duties
    cases g.runs with
    | none => rfl
    | some runs =>
      rw [Option.map_some, Option.getD_some, Option.getD_some, List.find?_map]
      rfl
  have hsame : (y.run? s).map duty = (x.run? s).map duty := by
    rw [hfind, hfind, h.duties]
  rw [hrun, hrun'] at hsame
  exact Option.some.inj hsame

/-- The graph behind the last cycle of a thread, or at the beginning. -/
def behindLast (s : SubgraphId) (ids : List SubgraphId) (g : Graph σ ω) : Graph σ ω :=
  (cyclesOf s ids g).getLast?.elim g (·.turn s)

/-- A run that is that of a subgraph whenever it has one. -/
structure Serves (g : Graph σ ω) (run : Run) : Prop where
  survives : g.partition.Survives run.subgraph.index
  order : ∀ id ∈ run.order, id ∈ g.partition.nodes run.subgraph
  duty : ∀ x run', g.Kin x → x.run? run.subgraph = some run' → duty run' = duty run

theorem CycleTurn.serves (hg : g.Built t) (hkin : g.Kin x) (hx : x.Built t)
    (hturn : x.CycleTurn s run) : g.Serves run := by
  have hp := hx.consistent.represents.wellFormed
  have hs := hx.staffed.survives_of_run? hp hturn.thread
  obtain rfl := (run?_eq_some hturn.thread).1
  constructor
  case survives => exact (hkin.partition.sameDivision.survives_iff _).1 hs
  case order =>
    intro id hid
    rw [← hkin.partition.nodes_eq hg.consistent.represents.wellFormed.toForest]
    exact (mem_nodes_iff hp hs).2 ((hturn.mem_order_iff hx).1 hid)
  case duty => exact fun y run' hy hrun' ↦ (hkin.symm.trans hy).duty_eq hturn.thread hrun'

/-- Since its last cycle a thread catches up to the same. -/
theorem agree_behindLast (hg : g.Built t) (h : g.Lossless own ids) (hserves : g.Serves run) :
    Agree (g.partition.nodes run.subgraph) own ((behindLast run.subgraph ids g).caughtUp run)
      ((g.turns ids).caughtUp run) := by
  induction ids using List.reverseRecOn with
  | nil => exact .refl _ _ _
  | append_singleton past a ih =>
    have hpast : past <+: past ++ [a] := List.prefix_append past [a]
    have hkin := Kin.turns g past
    rw [turns_concat, behindLast, cyclesOf_concat]
    split
    · next hexecutes =>
      obtain ⟨rfl, -⟩ := hexecutes
      rw [List.getLast?_concat]
      exact .refl _ _ _
    · next hrests =>
      rw [List.append_nil]
      refine (ih (h.of_prefix hpast)).trans ?_
      have hnodes := hkin.partition.nodes_eq hg.consistent.represents.wellFormed.toForest
        run.subgraph
      rw [← hnodes]
      refine agree_caughtUp_turn (hg.turns past) (h.isolated past hpast) ?_ ?_ ?_ ?_
      · exact (hkin.partition.sameDivision.survives_iff _).2 hserves.survives
      · rw [hnodes]
        exact hserves.order
      · exact fun run' ↦ hserves.duty _ run' hkin
      · exact fun ha ↦ Bool.eq_false_of_not_eq_true fun hexecutes ↦ hrests ⟨ha, hexecutes⟩

theorem waiting_turn_self (hg : g.Built t) {k : Nat} (hx : (cyclesOf s ids g)[k]? = some x) :
    (x.turn s).partition.waiting s.index = [] := by
  obtain ⟨past, -, -, rfl, -, hexecutes⟩ := exists_of_getElem?_cyclesOf hx
  obtain ⟨run, hturn⟩ :=
    exists_cycleTurn (hg.turns past).consistent.represents.wellFormed hexecutes
  calc
    ((g.turns past).turn s).partition.waiting s.index =
        ((g.turns past).partition.receive run.subgraph).2.waiting s.index := by
      rw [turn_eq hturn.thread, partition_iterate, if_pos hturn.alive]
    _ = [] := by rw [Partition.waiting_receive, (run?_eq_some hturn.thread).1, if_pos rfl]

/-- In runs that match a thread that has come equally far catches up to the same. -/
theorem Matches.agree_caughtUp (h : g.Matches own first second) (hg : g.Built t)
    (hfirst : g.Lossless own first) (hsecond : g.Lossless own second) (hserves : g.Serves run)
    (hlength : (cyclesOf run.subgraph first g).length = (cyclesOf run.subgraph second g).length) :
    Agree (g.partition.nodes run.subgraph) own ((g.turns first).caughtUp run)
      ((g.turns second).caughtUp run) := by
  have hbehind : Agree (g.partition.nodes run.subgraph) own
      ((behindLast run.subgraph first g).caughtUp run)
      ((behindLast run.subgraph second g).caughtUp run) := by
    unfold behindLast
    rw [List.getLast?_eq_getElem?, List.getLast?_eq_getElem?, ← hlength]
    cases hx : (cyclesOf run.subgraph first g)[(cyclesOf run.subgraph first g).length - 1]? with
    | none =>
      rw [List.getElem?_eq_none (hlength ▸ List.getElem?_eq_none_iff.1 hx)]
      exact .refl _ _ _
    | some x =>
      have hlt := (List.getElem?_eq_some_iff.1 hx).1.trans_eq hlength
      have hy := List.getElem?_eq_getElem hlt
      rw [hy]
      refine (h _ _ _ _ hx hy).agree.caughtUp hserves.order ?_
      rw [waiting_turn_self hg hx, waiting_turn_self hg hy]
  exact (agree_behindLast hg hfirst hserves).symm.trans
    (hbehind.trans (agree_behindLast hg hsecond hserves))

/-- If a thread executes a cycle behind two runs that match and in which it has come equally far, it
does the same. -/
theorem Matches.sameTurn (h : g.Matches own first second) (hg : g.Built t)
    (hfirst : g.Lossless own (first ++ [s])) (hsecond : g.Lossless own (second ++ [s]))
    (hlength : (cyclesOf s first g).length = (cyclesOf s second g).length)
    (hexecutes : (g.turns first).executes s = true)
    (hexecutes' : (g.turns second).executes s = true) :
    SameTurn (g.partition.nodes s) own s (g.turns first) (g.turns second) := by
  have hkin := Kin.turns g first
  have hp := hg.consistent.represents.wellFormed
  have hx := hg.turns first
  have hy := hg.turns second
  obtain ⟨run, hturn⟩ := exists_cycleTurn hx.consistent.represents.wellFormed hexecutes
  obtain ⟨run', hturn'⟩ := exists_cycleTurn hy.consistent.represents.wellFormed hexecutes'
  have hprefix : first <+: first ++ [s] := List.prefix_append first [s]
  have hprefix' : second <+: second ++ [s] := List.prefix_append second [s]
  have hlossless := hfirst.of_prefix hprefix
  have hlossless' := hsecond.of_prefix hprefix'
  obtain rfl := (run?_eq_some hturn.thread).1
  have hserves := hturn.serves hg hkin hx
  -- The thread is alive in both graphs, so it is the same.
  obtain rfl : run' = run := by
    have hduty := hserves.duty _ run' (Kin.turns g second) hturn'.thread
    obtain ⟨subgraph, order, alive⟩ := run
    obtain ⟨subgraph', order', alive'⟩ := run'
    obtain ⟨rfl, rfl⟩ := Prod.mk.inj hduty
    rw [Run.mk.injEq]
    exact ⟨rfl, rfl, hturn'.alive.trans hturn.alive.symm⟩
  have hnodes := hkin.partition.nodes_eq hp.toForest run'.subgraph
  rw [← hnodes]
  refine hturn.sameTurn (hkin.symm.trans (.turns g second)) hx hy
    (hfirst.isolated first hprefix) (hsecond.isolated second hprefix') hturn'
    (hfirst.kept_turn List.prefix_rfl) (hsecond.kept_turn List.prefix_rfl) ?_ ?_
  · rw [hnodes]
    exact h.agree_caughtUp hg hlossless hlossless' hserves hlength
  · intro id hid queue hrole
    rw [hkin.subgraphOf hp.toForest] at hid
    rw [role?_eq_some_iff_seen rfl, hkin.adapters, ← role?_eq_some_iff_seen rfl] at hrole
    exact h.oldest hg hlossless hlossless' hid hrole hlength hturn.fed hturn'.fed

/-- All runs in which no item is refused match. -/
theorem Lossless.matches (hg : g.Built t) (hfirst : g.Lossless own first)
    (hsecond : g.Lossless own second) : g.Matches own first second := by
  -- The last cycle of the first run is held against the cycle of the second run with the same
  -- number. What comes before the two cycles matches, since there the first run is shorter.
  induction first using List.reverseRecOn generalizing second with
  | nil =>
    intro s k x y hx
    cases hx
  | append_singleton past a ih =>
    intro s k x y hx hy
    have hpast : past <+: past ++ [a] := List.prefix_append past [a]
    rw [cyclesOf_concat, List.getElem?_append] at hx
    split at hx
    · exact ih (hfirst.of_prefix hpast) hsecond s k x y hx hy
    · next hlength =>
      split at hx
      · next hexecutes =>
        obtain ⟨rfl, hexecutes⟩ := hexecutes
        obtain ⟨hk, rfl⟩ := List.getElem?_eq_some_iff.1 hx
        obtain ⟨past', rest, rfl, rfl, hlength', hexecutes'⟩ := exists_of_getElem?_cyclesOf hy
        have hpast' : past' ++ [a] <+: past' ++ a :: rest :=
          ⟨rest, by rw [List.append_assoc]; rfl⟩
        have hsecond' := hsecond.of_prefix hpast'
        rw [List.length_singleton] at hk
        have hmatches := ih (hfirst.of_prefix hpast)
          (hsecond'.of_prefix (List.prefix_append past' [a]))
        have hsame := hmatches.sameTurn hg hfirst hsecond' (by omega) hexecutes hexecutes'
        simpa using hsame
      · cases hx

/-- What a cycle leaves: what became of it, and the nodes of its subgraph with their states and
ports. -/
structure Outcome (σ ω : Type) where
  kind : Option Iteration
  nodes : List (Option (Slot σ ω))

/-- What the thread of a subgraph leaves behind each cycle that it executes. -/
def outcomesOf (g : Graph σ ω) (s : SubgraphId) (ids : List SubgraphId) : List (Outcome σ ω) :=
  (cyclesOf s ids g).map fun x ↦ ⟨x.kindOf s, (g.partition.nodes s).map (x.turn s).slot?⟩

/-- Two runs with the same results. -/
structure SameResults (g : Graph σ ω) (first second : List SubgraphId) : Prop where
  /-- Behind as many cycles of a subgraph its nodes have the same states and outputs. -/
  outcomes : ∀ s (k : Nat) left left', (g.outcomesOf s first)[k]? = some left →
    (g.outcomesOf s second)[k]? = some left' → left' = left
  /-- In one of the runs a queue gets what it gets in the other one, and perhaps more. -/
  items : ∀ queue, Comparable (Transfer.accepted queue (g.moved first))
    (Transfer.accepted queue (g.moved second))

/-- Whatever was done to a graph whose inputs are attached by connections only: if nodes share
nothing but ports and the queues of connections and no item is refused, the order in which threads
iterate makes no difference to what they compute. -/
theorem schedules_make_no_difference (options : Options) (operations : List (Operation σ ω))
    (hwires : ∀ operation ∈ operations, operation.RewiresNothing)
    (own : NodeId → QueueId → Prop) {first second : List SubgraphId}
    (hfirst : ((empty options).after operations).Lossless own first)
    (hsecond : ((empty options).after operations).Lossless own second) :
    ((empty options).after operations).SameResults first second := by
  have hg := Built.after options hwires
  have hmatches := hfirst.matches hg hsecond
  constructor
  case outcomes =>
    intro s k left left' hleft hleft'
    rw [outcomesOf, List.getElem?_map] at hleft hleft'
    obtain ⟨x, hx, rfl⟩ := Option.map_eq_some_iff.1 hleft
    obtain ⟨y, hy, rfl⟩ := Option.map_eq_some_iff.1 hleft'
    have hsame := hmatches s k x y hx hy
    rw [hsame.kind, List.map_congr_left hsame.agree.nodes]
  case items => exact hmatches.accepted hg hfirst hsecond

/-- Nodes that count, and that add up the numbers that they are given. -/
inductive Counter where
  | count (next : UInt64)
  | total (sum : UInt64)
deriving DecidableEq

/-- The sum with one more number, if there is one. -/
def Counter.added (sum : UInt64) : Except PortFault Datum → UInt64
  | .ok (.word n) => sum + n
  | _ => sum

instance : Behaviour Counter Empty where
  name _ := "counter"
  naming _ _ := ⟨[], none⟩
  perform phase _ node :=
    match phase, node with
    | .reset, _ => .clearAll fun _ ↦ .done (.ok (), node)
    | .process, .count next => .store 0 (.word next) fun _ ↦ .done (.ok (), .count (next + 1))
    | .process, .total sum => .read 0 fun given ↦ .done (.ok (), .total (Counter.added sum given))
    | .init, _ | .destroy, _ => .done (.ok (), node)

/-- A node that counts, with a node behind a queue that adds up. -/
def counting : List (Operation Counter Empty) :=
  [.add [.output .word] (.count 1), .add [.input .word] (.total 0),
    .connect (.connectQueued ⟨0⟩ ⟨1⟩), .start .willing]

theorem isolated_counter (g : Graph Counter Empty) : g.Isolated fun _ _ ↦ False where
  within _ _ state _ _ := by
    intro _
    cases state with
    | count next => exact fun _ ↦ trivial
    | total sum => exact fun _ ↦ trivial
  apart _ _ _ := False.elim
  adapters _ _ _ := False.elim

/-- The second thread adds up two of three numbers at the end. -/
def late : List SubgraphId :=
  [⟨0⟩, ⟨0⟩, ⟨0⟩, ⟨1⟩, ⟨1⟩]

/-- The second thread adds up each number at once, and waits for the next one. -/
def prompt : List SubgraphId :=
  [⟨0⟩, ⟨1⟩, ⟨1⟩, ⟨0⟩, ⟨1⟩]

/-- Either way the second thread executes two cycles and comes to the same sum, though the queue
gets one number more in the first run. -/
theorem counting_is_determinate :
    ((empty .standard).after counting).isRunning = true ∧
    (((empty .standard).after counting).outcomesOf ⟨1⟩ late).length = 2 ∧
    (((empty .standard).after counting).outcomesOf ⟨1⟩ prompt).length = 2 ∧
    (((empty .standard).after counting).turns late).role? ⟨1⟩ = some (.custom (.total 3)) ∧
    (((empty .standard).after counting).turns prompt).role? ⟨1⟩ = some (.custom (.total 3)) ∧
    Transfer.accepted ⟨0⟩ (((empty .standard).after counting).moved late) =
      [.word 1, .word 2, .word 3] ∧
    Transfer.accepted ⟨0⟩ (((empty .standard).after counting).moved prompt) = [.word 1, .word 2] ∧
    ((empty .standard).after counting).SameResults late prompt := by
  have hwires : ∀ operation ∈ counting, operation.RewiresNothing := by
    intro operation hmem
    simp only [counting, List.mem_cons, List.not_mem_nil, or_false] at hmem
    rcases hmem with rfl | rfl | rfl | rfl
    all_goals trivial
  have hlate : ((empty .standard).after counting).Lossless (fun _ _ ↦ False) late :=
    ⟨fun _ _ ↦ isolated_counter _, by decide⟩
  have hprompt : ((empty .standard).after counting).Lossless (fun _ _ ↦ False) prompt :=
    ⟨fun _ _ ↦ isolated_counter _, by decide⟩
  refine ⟨by decide, by decide, by decide, rfl, rfl, rfl, rfl, ?_⟩
  exact schedules_make_no_difference .standard counting hwires (fun _ _ ↦ False) hlate hprompt

end Graph

end SignalFlow
