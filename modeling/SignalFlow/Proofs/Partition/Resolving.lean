import Mathlib.Logic.Relation
import SignalFlow.Proofs.Partition.Join

/-!
# What identifiers resolve to

A partition goes through changes, each of which may look for the survivors of identifiers that were
handed out before. Of all changes only a union moves a pointer. It hangs one of two survivors under
the other, which may have the smaller or the larger index, so that the pointers stay a forest. The
search along them therefore ends from every entry, at one that is its own parent. Two identifiers
have one survivor exactly if unions have related them, directly or by way of others, and whatever
an identifier resolves to stands for it in all later searches.
-/

namespace SignalFlow.Partition

variable {β : Type} {p q r : Partition β} {a b into x y : SubgraphId} {i j : Nat}

/-- The search for a survivor, turn by turn. An entry that it comes to has to be there. The search
ends if the entry is its own parent, and goes on at its parent otherwise. -/
inductive Search (p : Partition β) : Nat → Nat → Prop
  | found {i : Nat} {e : Entry β} (hentry : p.entries[i]? = some e) (hself : e.parent = i) :
      Search p i i
  | follow {i j : Nat} {e : Entry β} (hentry : p.entries[i]? = some e) (hother : e.parent ≠ i)
      (hrest : Search p e.parent j) : Search p i j

theorem getElem?_entries (hi : i < p.entries.length) : p.entries[i]? = some (p.entry i) := by
  simp [entry, hi]

theorem entry_of_getElem? {e : Entry β} (h : p.entries[i]? = some e) : p.entry i = e := by
  simp [entry, h]

theorem Forest.search_root (hp : p.Forest) (hi : i < p.entries.length) :
    p.Search i (p.root i) := by
  refine hp.induction (motive := fun i ↦ i < p.entries.length → p.Search i (p.root i)) ?_ ?_ i hi
  · intro i hi hlt
    rw [root_of_survives hi]
    exact .found (getElem?_entries hlt) hi
  · intro i hi ih hlt
    rw [← hp.root_parent]
    exact .follow (getElem?_entries hlt) hi (ih (hp.parent_lt hlt))

theorem Search.eq_root (h : p.Search i j) (hp : p.Forest) : j = p.root i := by
  induction h with
  | @found i e hentry hself =>
    have hi : p.Survives i := by rw [Survives, entry_of_getElem? hentry, hself]
    exact (root_of_survives hi).symm
  | @follow i j e hentry _ _ ih => rw [ih, ← hp.root_parent i, entry_of_getElem? hentry]

/-- The search ends from every entry, and only at the survivor. -/
theorem Forest.search_iff (hp : p.Forest) (hi : i < p.entries.length) :
    p.Search i j ↔ j = p.root i := by
  constructor
  · intro h
    exact h.eq_root hp
  · rintro rfl
    exact hp.search_root hi

/-- An identifier of a subgraph that was made. -/
def Knows (p : Partition β) (id : SubgraphId) : Prop :=
  id.index < p.entries.length

instance (p : Partition β) (id : SubgraphId) : Decidable (p.Knows id) :=
  inferInstanceAs (Decidable (_ < _))

/-- A partition behind a union. One of the two survivors stands for both from then on, and all
other survivors stay. -/
structure Unites (a b into : SubgraphId) (p q : Partition β) : Prop where
  forest : q.Forest
  find : ∀ x, q.find x = if p.find x = p.find a ∨ p.find x = p.find b then into else p.find x
  into_eq : into = p.find a ∨ into = p.find b

theorem Unites.symm (h : Unites a b into p q) : Unites b a into p q where
  forest := h.forest
  find x := (h.find x).trans (if_congr or_comm rfl rfl)
  into_eq := h.into_eq.symm

theorem unites_refl (hp : p.Forest) (hab : p.find a = p.find b) : Unites a b (p.find a) p p where
  forest := hp
  find x := by
    split
    · next hx => exact hx.elim id fun hxb ↦ hxb.trans hab.symm
    · rfl
  into_eq := .inl rfl

theorem Forest.unites_merge (hp : p.Forest) (ha : p.Knows a) (hb : p.Knows b)
    (hne : p.find a ≠ p.find b) :
    Unites a b (p.find a) p (p.merge (p.find a).index (p.find b).index) := by
  have hindex : (p.find a).index ≠ (p.find b).index := fun h ↦ hne (congrArg SubgraphId.mk h)
  have hwinner : p.Survives (p.find a).index := hp.survives_root a.index
  have hloser : p.Survives (p.find b).index := hp.survives_root b.index
  have hwinner_lt : (p.find a).index < p.entries.length := hp.root_lt ha
  have hloser_lt : (p.find b).index < p.entries.length := hp.root_lt hb
  refine ⟨forest_merge hwinner_lt hloser_lt hindex hp hwinner hloser, fun x ↦ ?_, .inl rfl⟩
  rw [find_merge hwinner_lt hloser_lt hindex hp hwinner hloser, mergedName]
  by_cases hxb : p.find x = p.find b
  · rw [if_pos (congrArg SubgraphId.index hxb), if_pos (.inr hxb)]
  · have hindexb : (p.find x).index ≠ (p.find b).index := fun h ↦ hxb (congrArg SubgraphId.mk h)
    rw [if_neg hindexb]
    by_cases hxa : p.find x = p.find a
    · rw [if_pos (.inl hxa), hxa]
    · rw [if_neg (not_or.2 ⟨hxa, hxb⟩)]

theorem Forest.unites (hp : p.Forest) (ha : p.Knows a) (hb : p.Knows b) :
    Unites a b (p.union a b).1 p (p.union a b).2 := by
  unfold union
  simp only
  by_cases hab : p.root a.index = p.root b.index
  · rw [if_pos hab]
    exact unites_refl hp (congrArg SubgraphId.mk hab)
  · rw [if_neg hab]
    have hne : p.find a ≠ p.find b := fun h ↦ hab (congrArg SubgraphId.index h)
    split
    · exact hp.unites_merge ha hb hne
    · exact (hp.unites_merge hb ha hne.symm).symm

namespace Unites

theorem find_left (h : Unites a b into p q) : q.find a = into := by
  rw [h.find, if_pos (.inl rfl)]

theorem find_right (h : Unites a b into p q) : q.find b = into := by
  rw [h.find, if_pos (.inr rfl)]

end Unites

/-- What is done to a partition. -/
inductive Change (β : Type) where
  | create
  | assign (node : NodeId) (id : SubgraphId)
  | addEdge (id : SubgraphId) (edge : Edge)
  | union (a b : SubgraphId)
  | link (producer consumer : SubgraphId)
  | setInbound (id : SubgraphId) (queue : QueueId)
  | send (id : SubgraphId) (batch : β)
  | receive (id : SubgraphId)
  | forwardAll
deriving DecidableEq, Repr

variable {change : Change β} {past more : List (Change β)}

/-- The identifiers whose survivors a change looks for. -/
def Change.sought : Change β → List SubgraphId
  | .assign _ id | .addEdge id _ | .setInbound id _ => [id]
  | .union a b => [a, b]
  | _ => []

def changed (p : Partition β) : Change β → Partition β
  | .create => p.create.2
  | .assign node id => p.assign node id
  | .addEdge id edge => p.addEdge id edge
  | .union a b => (p.union a b).2
  | .link producer consumer => p.link producer consumer
  | .setInbound id queue => p.setInbound id queue
  | .send id batch => p.send id batch
  | .receive id => (p.receive id).2
  | .forwardAll => p.forwardAll

/-- The partition behind a change, unless that looks for the survivor of a subgraph that was never
made. -/
def changed? (p : Partition β) (change : Change β) : Option (Partition β) :=
  if ∀ id ∈ change.sought, p.Knows id then some (p.changed change) else none

def after? (p : Partition β) (changes : List (Change β)) : Option (Partition β) :=
  changes.foldlM changed? p

/-- Two identifiers that one of the changes unites. -/
def United (changes : List (Change β)) (a b : SubgraphId) : Prop :=
  .union a b ∈ changes

theorem changed?_eq_some_iff :
    p.changed? change = some q ↔ (∀ id ∈ change.sought, p.Knows id) ∧ p.changed change = q := by
  rw [changed?, Option.ite_none_right_eq_some, Option.some_inj]

theorem after?_cons : p.after? (change :: more) = some q ↔
    ∃ r, p.changed? change = some r ∧ r.after? more = some q := by
  rw [after?, List.foldlM_cons, Option.bind_eq_bind, Option.bind_eq_some_iff]
  rfl

/-- Only a union moves a pointer, and no entry goes away. -/
theorem parent_changed (hchange : ∀ a b, change ≠ .union a b) :
    p.entries.length ≤ (p.changed change).entries.length ∧
      ∀ i, ((p.changed change).entry i).parent = (p.entry i).parent := by
  have hsame {q : Partition β} (h : p.SameDivision q) : p.entries.length ≤ q.entries.length ∧
      ∀ i, (q.entry i).parent = (p.entry i).parent := ⟨h.length_le, h.parent⟩
  cases change with
  | create => exact ⟨(grows_create p).length_le, (grows_create p).parent⟩
  | assign node id => exact ⟨(grows_assign p node id).length_le, (grows_assign p node id).parent⟩
  | addEdge id edge => exact hsame (.modify p _ (fun _ ↦ rfl) (fun _ ↦ rfl) fun _ ↦ rfl)
  | union a b => exact absurd rfl (hchange a b)
  | link producer consumer => exact ⟨le_rfl, fun _ ↦ rfl⟩
  | setInbound id queue =>
    refine ⟨(length_modify _ _ _).ge, fun i ↦ ?_⟩
    rw [changed, setInbound, entry_modify]
    split <;> rfl
  | send id batch => exact hsame (SameTopology.send p id batch).sameDivision
  | receive id => exact hsame (SameTopology.receive p id).sameDivision
  | forwardAll => exact hsame (SameTopology.forwardAll p).sameDivision

/-- A change unites two identifiers, or all survivors stay. -/
theorem Forest.changed_cases (hp : p.Forest) (hchange : p.changed? change = some q) :
    (∃ a b into, change = .union a b ∧ Unites a b into p q) ∨
      (∀ a b, change ≠ .union a b) ∧ q.Forest ∧ ∀ x, q.find x = p.find x := by
  obtain ⟨hknown, rfl⟩ := changed?_eq_some_iff.1 hchange
  by_cases h : ∃ a b, change = .union a b
  · obtain ⟨a, b, rfl⟩ := h
    exact .inl ⟨a, b, _, rfl, hp.unites (hknown a (by simp [Change.sought]))
      (hknown b (by simp [Change.sought]))⟩
  · have hother : ∀ a b, change ≠ .union a b := fun a b hab ↦ h ⟨a, b, hab⟩
    obtain ⟨hlength, hparent⟩ := parent_changed (p := p) hother
    exact .inr ⟨hother, hp.congr hlength hparent,
      fun x ↦ congrArg SubgraphId.mk (hp.root_congr hlength hparent x.index)⟩

/-- In a later partition every identifier resolves like the survivor that it had before. -/
def StandsIn (p q : Partition β) : Prop :=
  ∀ x, q.find x = q.find (p.find x)

theorem Forest.standsIn_refl (hp : p.Forest) : p.StandsIn p :=
  fun x ↦ (hp.find_find x).symm

theorem StandsIn.trans (hpq : p.StandsIn q) (hqr : q.StandsIn r) : p.StandsIn r := by
  intro x
  rw [hqr x, hpq x, ← hqr (p.find x)]

theorem Forest.standsIn_changed (hp : p.Forest) (hchange : p.changed? change = some q) :
    p.StandsIn q := by
  intro x
  obtain ⟨a, b, into, -, hunites⟩ | ⟨-, -, hfind⟩ := hp.changed_cases hchange
  · rw [hunites.find, hunites.find (p.find x), hp.find_find]
  · rw [hfind, hfind, hp.find_find]

/-- The forest of a partition in which two identifiers have one survivor exactly if changes have
related them. A survivor is related to what resolves to it. -/
structure Classified (past : List (Change β)) (p : Partition β) : Prop extends Forest p where
  find_eq : ∀ {a b}, United past a b → p.find a = p.find b
  related : ∀ x, Relation.EqvGen (United past) x (p.find x)

theorem classified_empty : Classified [] (empty : Partition β) where
  toForest := wellFormed_empty.toForest
  find_eq h := nomatch h
  related x := by
    rw [find_of_survives (survives_of_length_le (Nat.zero_le _))]
    exact .refl x

theorem United.concat (h : United past a b) : United (past ++ [change]) a b :=
  List.mem_append_left _ h

namespace Classified

theorem find_eq_iff (h : Classified past p) (x y : SubgraphId) :
    p.find x = p.find y ↔ Relation.EqvGen (United past) x y := by
  constructor
  · intro hxy
    exact (h.related x).trans _ _ _ (hxy ▸ (h.related y).symm _ _)
  · intro hxy
    induction hxy with
    | rel a b hab => exact h.find_eq hab
    | refl x => rfl
    | symm x y _ ih => exact ih.symm
    | trans x y z _ _ ihxy ihyz => exact ihxy.trans ihyz

theorem related_concat (h : Classified past p) (change : Change β) (x : SubgraphId) :
    Relation.EqvGen (United (past ++ [change])) x (p.find x) :=
  (h.related x).mono fun _ _ ↦ United.concat

theorem unite (h : Classified past p) (hunites : Unites a b into p q) :
    Classified (past ++ [.union a b]) q where
  toForest := hunites.forest
  find_eq {c d} hcd := by
    rcases List.mem_append.1 hcd with hold | hnew
    · rw [hunites.find, hunites.find, h.find_eq hold]
    · cases List.mem_singleton.1 hnew
      rw [hunites.find_left, hunites.find_right]
  related x := by
    have hab : Relation.EqvGen (United (past ++ [.union a b])) (p.find a) (p.find b) :=
      ((h.related_concat _ a).symm _ _).trans _ _ _
        ((Relation.EqvGen.rel a b List.mem_concat_self).trans _ _ _ (h.related_concat _ b))
    have hinto : Relation.EqvGen (United (past ++ [.union a b])) (p.find a) into := by
      rcases hunites.into_eq with rfl | rfl
      · exact .refl _
      · exact hab
    have hx := h.related_concat (.union a b) x
    rw [hunites.find]
    split
    · next htouched =>
      rcases htouched with hxa | hxb
      · exact hx.trans _ _ _ (hxa ▸ hinto)
      · exact hx.trans _ _ _ (hxb ▸ (hab.symm _ _).trans _ _ _ hinto)
    · exact hx

theorem changed (h : Classified past p) (hchange : p.changed? change = some q) :
    Classified (past ++ [change]) q := by
  obtain ⟨a, b, into, rfl, hunites⟩ | ⟨hother, hq, hfind⟩ := h.toForest.changed_cases hchange
  · exact h.unite hunites
  · refine ⟨hq, fun {a b} hab ↦ ?_, fun x ↦ ?_⟩
    · rw [hfind, hfind]
      have hne : .union a b ≠ change := (hother a b).symm
      exact h.find_eq ((List.mem_append.1 hab).resolve_right fun hnew ↦
        hne (List.mem_singleton.1 hnew))
    · rw [hfind]
      exact h.related_concat change x

theorem after (h : Classified past p) (hmore : p.after? more = some q) :
    Classified (past ++ more) q ∧ p.StandsIn q := by
  induction more generalizing past p with
  | nil =>
    cases hmore
    rw [List.append_nil]
    exact ⟨h, h.toForest.standsIn_refl⟩
  | cons change more ih =>
    obtain ⟨r, hchange, hrest⟩ := after?_cons.1 hmore
    obtain ⟨hq, hstands⟩ := ih (h.changed hchange) hrest
    rw [List.append_cons]
    exact ⟨hq, (h.toForest.standsIn_changed hchange).trans hstands⟩

end Classified

/-! ## Partitions with a past -/

/-- What the identifiers of a partition with a past resolve to. From every entry the search ends,
at an entry that is its own parent and nowhere else. Two identifiers have one survivor exactly if
they are related by the closure of the pairs that were united. A union returns the survivor of
both. Whatever comes later, an identifier resolves like the survivor that it has now, hence to
that one as long as it survives. -/
structure Resolves (past : List (Change β)) (p : Partition β) : Prop where
  search_iff : ∀ {i}, i < p.entries.length → ∀ j, p.Search i j ↔ j = p.root i
  root_lt : ∀ {i}, i < p.entries.length → p.root i < p.entries.length
  survives_root : ∀ i, (p.entry (p.root i)).parent = p.root i
  find_eq_iff : ∀ x y, p.find x = p.find y ↔ Relation.EqvGen (United past) x y
  find_union : ∀ {a b}, p.Knows a → p.Knows b →
    (p.union a b).2.find a = (p.union a b).1 ∧ (p.union a b).2.find b = (p.union a b).1
  find_after : ∀ {more q}, p.after? more = some q → ∀ x, q.find x = q.find (p.find x)
  find_stays : ∀ {more q}, p.after? more = some q → ∀ x, q.Survives (p.find x).index →
    q.find x = p.find x

/-- Identifiers resolve so in every partition that changes make out of the empty one. -/
theorem identifiers_resolve (h : (empty : Partition β).after? past = some p) :
    p.Resolves past := by
  have hp : Classified past p := (classified_empty.after h).1
  have hstands {more : List (Change β)} {q : Partition β} (hmore : p.after? more = some q) :
      p.StandsIn q := (hp.after hmore).2
  constructor
  case search_iff => exact fun hi j ↦ hp.toForest.search_iff hi
  case root_lt => exact hp.toForest.root_lt
  case survives_root => exact hp.toForest.survives_root
  case find_eq_iff => exact hp.find_eq_iff
  case find_union =>
    intro a b ha hb
    have hunites := hp.toForest.unites ha hb
    exact ⟨hunites.find_left, hunites.find_right⟩
  case find_after => exact hstands
  case find_stays =>
    intro more q hmore x hx
    rw [hstands hmore x, find_of_survives hx]

/-- The first subgraph goes into the second one, which then goes into the third one, and so does
the last, which has no nodes. The pointers are 0 → 1 → 2 ← 4. -/
def pointersBothWays : List (Change Unit) :=
  [.create, .create, .create, .create, .create, .assign ⟨0⟩ ⟨1⟩, .union ⟨0⟩ ⟨1⟩,
    .setInbound ⟨0⟩ ⟨0⟩, .link ⟨0⟩ ⟨3⟩, .assign ⟨1⟩ ⟨2⟩, .assign ⟨2⟩ ⟨2⟩, .union ⟨0⟩ ⟨2⟩,
    .union ⟨4⟩ ⟨1⟩]

theorem pointersBothWays_resolve : ∃ p : Partition Unit,
    empty.after? pointersBothWays = some p ∧ p.Resolves pointersBothWays ∧
    p.entries.map Entry.parent = [1, 2, 2, 3, 2] ∧
    Relation.EqvGen (United pointersBothWays) ⟨0⟩ ⟨4⟩ ∧
    ¬ Relation.EqvGen (United pointersBothWays) ⟨0⟩ ⟨3⟩ := by
  have hafter : (empty : Partition Unit).after? pointersBothWays = some _ := rfl
  have hresolves := identifiers_resolve hafter
  refine ⟨_, hafter, hresolves, rfl, (hresolves.find_eq_iff _ _).1 rfl, fun h ↦ ?_⟩
  have hfind := (hresolves.find_eq_iff _ _).2 h
  exact absurd hfind (by decide)

end SignalFlow.Partition
