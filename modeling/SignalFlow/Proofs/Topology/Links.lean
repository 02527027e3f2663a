import Mathlib.Logic.Equiv.Basic
import SignalFlow.Proofs.Topology.Renaming

/-!
# The same links in another order

Links that are asked for one after the other are numbered as they come: each one with a queue
gets the next number for it, and the next two for its writer and its reader. In another order
the links get other numbers, and are the same connections but for these.
-/

namespace SignalFlow

/-- A connection that is asked for, from an output to an input. -/
structure Link where
  source : PortRef
  target : PortRef
  /-- The capacity of the queue between them, if there is to be one. -/
  capacity? : Option Nat
deriving DecidableEq, Repr

namespace Link

/-- The connection that a link becomes if there are so many nodes and queues before it. -/
def connection (link : Link) (nodes queues : Nat) : Connection :=
  match link.capacity? with
  | none => .direct link.source.node link.target.node
  | some _ => .queued ⟨link.source.node, ⟨nodes⟩, ⟨nodes + 1⟩, link.target.node, ⟨queues⟩⟩

def newNodes (link : Link) : Nat :=
  link.capacity?.elim 0 fun _ ↦ 2

def newQueues (link : Link) : Nat :=
  link.capacity?.elim 0 fun _ ↦ 1

/-- Whether a link is between the first so many nodes. -/
def Within (nodes : Nat) (link : Link) : Prop :=
  link.source.node.index < nodes ∧ link.target.node.index < nodes

/-- The connections that links become one after the other. -/
def connections (nodes queues : Nat) : List Link → Topology
  | [] => []
  | link :: rest => link.connection nodes queues ::
      connections (nodes + link.newNodes) (queues + link.newQueues) rest

end Link

namespace Renaming

/-- Whether nodes and queues of certain numbers keep their names. -/
structure Fixes (r : Renaming) (nodes queues : Nat → Prop) : Prop where
  nodes : ∀ node : NodeId, nodes node.index → r.nodes node = node
  queues : ∀ queue : QueueId, queues queue.index → r.queues queue = queue

variable {r r' : Renaming} {nodes queues nodes' queues' : Nat → Prop} {n m k j : Nat} {link : Link}

namespace Fixes

protected theorem refl : Renaming.refl.Fixes nodes queues where
  nodes _ _ := rfl
  queues _ _ := rfl

protected theorem trans (h : r.Fixes nodes queues) (h' : r'.Fixes nodes queues) :
    (r.trans r').Fixes nodes queues where
  nodes node hnode := (congrArg r'.nodes (h.nodes node hnode)).trans (h'.nodes node hnode)
  queues queue hqueue :=
    (congrArg r'.queues (h.queues queue hqueue)).trans (h'.queues queue hqueue)

theorem mono (h : r.Fixes nodes queues) (hnodes : ∀ i, nodes' i → nodes i)
    (hqueues : ∀ i, queues' i → queues i) : r.Fixes nodes' queues' where
  nodes node hnode := h.nodes node (hnodes _ hnode)
  queues queue hqueue := h.queues queue (hqueues _ hqueue)

end Fixes

/-- A link whose ends keep their names takes the new names of what comes with it. -/
theorem connection_link (h : r.Fixes (· < n) (· < k)) (hlink : link.Within n) {n' k' : Nat}
    (hnodes : ∀ i < link.newNodes, r.nodes ⟨n' + i⟩ = ⟨m + i⟩)
    (hqueues : ∀ i < link.newQueues, r.queues ⟨k' + i⟩ = ⟨j + i⟩) :
    r.connection (link.connection n' k') = link.connection m j := by
  have hsource := h.nodes _ hlink.1
  have htarget := h.nodes _ hlink.2
  unfold Link.connection
  split
  · simp only [connection, hsource, htarget]
  · next capacity hcapacity =>
    have htwo : link.newNodes = 2 := by rw [Link.newNodes, hcapacity, Option.elim_some]
    have hone : link.newQueues = 1 := by rw [Link.newQueues, hcapacity, Option.elim_some]
    have hwriter : r.nodes ⟨n'⟩ = ⟨m⟩ := hnodes 0 (by omega)
    have hreader : r.nodes ⟨n' + 1⟩ = ⟨m + 1⟩ := hnodes 1 (by omega)
    have hqueue : r.queues ⟨k'⟩ = ⟨j⟩ := hqueues 0 (by omega)
    simp only [connection, bridge, hsource, htarget, hwriter, hreader, hqueue]

/-- Links keep their names if their ends and all that comes with them do. -/
theorem connections_links {n' k' : Nat}
    (h : r.Fixes (fun i ↦ i < n ∨ n' ≤ i) (fun i ↦ i < k ∨ k' ≤ i))
    {links : List Link} (hlinks : ∀ link ∈ links, link.Within n) :
    (Link.connections n' k' links).map r.connection = Link.connections n' k' links := by
  induction links generalizing n' k' with
  | nil => rfl
  | cons link rest ih =>
    have hends : r.Fixes (· < n) (· < k) := h.mono (fun i ↦ .inl) (fun i ↦ .inl)
    have hlater : r.Fixes (fun i ↦ i < n ∨ n' + link.newNodes ≤ i)
        (fun i ↦ i < k ∨ k' + link.newQueues ≤ i) :=
      h.mono (fun i hi ↦ by omega) (fun i hi ↦ by omega)
    have hhead : r.connection (link.connection n' k') = link.connection n' k' :=
      connection_link hends (hlinks link List.mem_cons_self)
        (fun i _ ↦ h.nodes _ (.inr (Nat.le_add_right n' i)))
        (fun i _ ↦ h.queues _ (.inr (Nat.le_add_right k' i)))
    have hrest := ih hlater fun later hmem ↦ hlinks later (List.mem_cons_of_mem _ hmem)
    rw [Link.connections, List.map_cons, hhead, hrest]

/-- The renaming that exchanges the numbers of two links with queues. -/
def exchange (n k : Nat) : Renaming where
  nodes := (Equiv.swap ⟨n⟩ ⟨n + 2⟩).trans (Equiv.swap ⟨n + 1⟩ ⟨n + 3⟩)
  queues := Equiv.swap ⟨k⟩ ⟨k + 1⟩

theorem fixes_exchange (n k : Nat) : (exchange n k).Fixes (fun i ↦ i < n ∨ n + 4 ≤ i)
    (fun i ↦ i < k ∨ k + 2 ≤ i) where
  nodes node hnode := by
    have hne {m : Nat} (hm : node.index ≠ m) : node ≠ ⟨m⟩ := fun heq ↦ hm (congrArg _ heq)
    change Equiv.swap _ _ (Equiv.swap _ _ node) = node
    rw [Equiv.swap_apply_of_ne_of_ne (hne (by omega)) (hne (by omega)),
      Equiv.swap_apply_of_ne_of_ne (hne (by omega)) (hne (by omega))]
  queues queue hqueue := by
    have hne {m : Nat} (hm : queue.index ≠ m) : queue ≠ ⟨m⟩ := fun heq ↦ hm (congrArg _ heq)
    exact Equiv.swap_apply_of_ne_of_ne (hne (by omega)) (hne (by omega))

theorem exchange_nodes (n k : Nat) {i : Nat} (hi : i < 2) :
    (exchange n k).nodes ⟨n + i⟩ = ⟨n + 2 + i⟩ ∧ (exchange n k).nodes ⟨n + 2 + i⟩ = ⟨n + i⟩ := by
  have hcases : i = 0 ∨ i = 1 := by omega
  simp only [exchange, Equiv.trans_apply, Equiv.swap_apply_def, NodeId.mk.injEq]
  rcases hcases with rfl | rfl <;> simp [Nat.add_assoc]

theorem exchange_queues (n k : Nat) {i : Nat} (hi : i < 1) :
    (exchange n k).queues ⟨k + i⟩ = ⟨k + 1 + i⟩ ∧
      (exchange n k).queues ⟨k + 1 + i⟩ = ⟨k + i⟩ := by
  obtain rfl : i = 0 := by omega
  exact ⟨Equiv.swap_apply_left _ _, Equiv.swap_apply_right _ _⟩

end Renaming

namespace Link

variable {n k : Nat} {first second links : List Link} {a b : Link}

theorem Within.mono {m : Nat} {link : Link} (h : link.Within n) (hle : n ≤ m) : link.Within m :=
  ⟨h.1.trans_le hle, h.2.trans_le hle⟩

/-- A link without a queue neither takes numbers nor gives any. -/
theorem connection_behind (h : a.capacity? = none ∨ b.capacity? = none) (n k : Nat) :
    a.connection (n + b.newNodes) (k + b.newQueues) = a.connection n k := by
  rcases h with hnone | hnone
  · simp only [connection, hnone]
  · simp only [newNodes, newQueues, hnone, Option.elim_none, Nat.add_zero]

/-- Two links may be asked for in either order. -/
theorem exists_renamedBy_swap (ha : a.Within n) (hb : b.Within n)
    (hlinks : ∀ link ∈ links, link.Within n) : ∃ r : Renaming, r.Fixes (· < n) (· < k) ∧
      Topology.RenamedBy r (connections n k (b :: a :: links))
        (connections n k (a :: b :: links)) := by
  by_cases hqueues : a.capacity? = none ∨ b.capacity? = none
  · refine ⟨.refl, .refl, ?_⟩
    have hnodes := Nat.add_right_comm n a.newNodes b.newNodes
    have hqueues' := Nat.add_right_comm k a.newQueues b.newQueues
    unfold Topology.RenamedBy
    simp only [connections, funext Renaming.connection_refl, List.map_id', hnodes, hqueues',
      connection_behind hqueues, connection_behind hqueues.symm]
    exact List.Perm.swap _ _ _
  · -- Only two queues take each other's numbers.
    have hcount {link : Link} (h : link.capacity? ≠ none) :
        link.newNodes = 2 ∧ link.newQueues = 1 := by
      obtain ⟨capacity, hcapacity⟩ := Option.ne_none_iff_exists'.1 h
      simp only [newNodes, newQueues, hcapacity, Option.elim_some, and_self]
    obtain ⟨⟨han, haq⟩, hbn, hbq⟩ := (not_or.1 hqueues).imp hcount hcount
    have hfixes := Renaming.fixes_exchange n k
    have hends : (Renaming.exchange n k).Fixes (· < n) (· < k) :=
      hfixes.mono (fun i ↦ .inl) (fun i ↦ .inl)
    have hahead : (Renaming.exchange n k).connection (b.connection n k) =
        b.connection (n + 2) (k + 1) :=
      Renaming.connection_link hends hb
        (fun i hi ↦ (Renaming.exchange_nodes n k (hbn ▸ hi)).1)
        (fun i hi ↦ (Renaming.exchange_queues n k (hbq ▸ hi)).1)
    have hbehind : (Renaming.exchange n k).connection (a.connection (n + 2) (k + 1)) =
        a.connection n k :=
      Renaming.connection_link hends ha
        (fun i hi ↦ (Renaming.exchange_nodes n k (han ▸ hi)).2)
        (fun i hi ↦ (Renaming.exchange_queues n k (haq ▸ hi)).2)
    refine ⟨Renaming.exchange n k, hends, ?_⟩
    simp only [Topology.RenamedBy, connections, han, haq, hbn, hbq, Nat.add_assoc, List.map_cons]
    rw [Renaming.connections_links hfixes hlinks, hahead, hbehind]
    exact List.Perm.swap _ _ _

/-- Links in any other order become the same connections under new names. -/
theorem exists_renamedBy (hperm : first.Perm second) (hfirst : ∀ link ∈ first, link.Within n) :
    ∃ r : Renaming, r.Fixes (· < n) (· < k) ∧
      Topology.RenamedBy r (connections n k first) (connections n k second) := by
  induction hperm generalizing n k with
  | nil => exact ⟨.refl, .refl, .refl _⟩
  | cons link hrest ih =>
    obtain ⟨r, hfixes, h⟩ := ih (n := n + link.newNodes) (k := k + link.newQueues)
      fun later hmem ↦ (hfirst later (List.mem_cons_of_mem _ hmem)).mono (Nat.le_add_right _ _)
    have hearlier : r.Fixes (· < n) (· < k) :=
      hfixes.mono (fun i ↦ Nat.lt_add_right _) (fun i ↦ Nat.lt_add_right _)
    -- The others are renamed as behind the link, whose numbers they do not touch.
    have hhead : r.connection (link.connection n k) = link.connection n k :=
      Renaming.connection_link hearlier (hfirst link List.mem_cons_self)
        (fun i hi ↦ hfixes.nodes _ (Nat.add_lt_add_left hi n))
        (fun i hi ↦ hfixes.queues _ (Nat.add_lt_add_left hi k))
    have hsingle : ∀ c ∈ [link.connection n k], r.connection c = c := by simpa using hhead
    exact ⟨r, hearlier, h.append_left hsingle⟩
  | swap a b links =>
    simp only [List.forall_mem_cons] at hfirst
    exact exists_renamedBy_swap hfirst.2.1 hfirst.1 hfirst.2.2
  | trans hbefore hbehind ih ih' =>
    obtain ⟨r, hfixes, h⟩ := ih hfirst
    obtain ⟨r', hfixes', h'⟩ := ih' fun link hmem ↦ hfirst link (hbefore.mem_iff.2 hmem)
    exact ⟨r.trans r', hfixes.trans hfixes', h.trans h'⟩

end Link

end SignalFlow
