import Mathlib.Data.Finset.Card
import SignalFlow.Graph.Partition

/-!
# Survivors of merged subgraphs

An entry of a partition that was merged away points to the entry that took it over. These
pointers form a forest, whose depth decreases along every pointer, so that the search for the
survivor of an entry ends at an entry that points to itself before its fuel is used up. The
survivor is the only function that is fixed on surviving entries and constant along pointers;
every statement about a changed partition reads its survivors off that characterization.
-/

namespace SignalFlow.Partition

variable {β : Type} {p q : Partition β}

theorem entry_of_length_le {i : Nat} (h : p.entries.length ≤ i) : p.entry i = .root i := by
  simp [entry, List.getElem?_eq_none h]

@[simp] theorem length_modify (p : Partition β) (i : Nat) (change : Entry β → Entry β) :
    (p.modify i change).entries.length = p.entries.length := by
  simp [modify]

theorem entry_modify (p : Partition β) (i : Nat) (change : Entry β → Entry β) (j : Nat) :
    (p.modify i change).entry j =
      if i = j ∧ j < p.entries.length then change (p.entry j) else p.entry j := by
  by_cases hj : j < p.entries.length
  · by_cases hij : i = j <;> simp [entry, modify, hj, hij]
  · have hlen : (p.modify i change).entries.length ≤ j := by simpa using hj
    rw [entry_of_length_le hlen, if_neg (fun h ↦ hj h.2), entry_of_length_le (Nat.not_lt.1 hj)]

theorem entry_create (p : Partition β) (i : Nat) : p.create.2.entry i = p.entry i := by
  rcases Nat.lt_trichotomy i p.entries.length with h | rfl | h
  · simp [entry, create, List.getElem?_append_left h]
  · simp [entry, create]
  · have hlen : p.create.2.entries.length ≤ i := by
      rw [create, List.length_append, List.length_singleton]
      exact h
    rw [entry_of_length_le hlen, entry_of_length_le (Nat.le_of_lt h)]

/-- An entry that was not merged into another one. -/
def Survives (p : Partition β) (i : Nat) : Prop :=
  (p.entry i).parent = i

instance (p : Partition β) (i : Nat) : Decidable (p.Survives i) :=
  inferInstanceAs (Decidable (_ = _))

theorem survives_of_length_le {i : Nat} (h : p.entries.length ≤ i) : p.Survives i := by
  rw [Survives, entry_of_length_le h, Entry.root]

theorem lt_length_of_not_survives {i : Nat} (h : ¬ p.Survives i) : i < p.entries.length :=
  Nat.lt_of_not_le fun hle ↦ h (survives_of_length_le hle)

/-- The pointers of merged entries stay inside the partition and have no cycle. -/
structure Forest (p : Partition β) : Prop where
  parent_lt : ∀ {i}, i < p.entries.length → (p.entry i).parent < p.entries.length
  descends : ∃ depth : Nat → Nat, ∀ i, ¬ p.Survives i → depth (p.entry i).parent < depth i

theorem rootWithin_of_survives {i : Nat} (h : p.Survives i) (fuel : Nat) :
    p.rootWithin fuel i = i := by
  cases fuel with
  | zero => rfl
  | succ fuel => exact if_pos h

theorem rootWithin_succ {i : Nat} (h : ¬ p.Survives i) (fuel : Nat) :
    p.rootWithin (fuel + 1) i = p.rootWithin fuel (p.entry i).parent :=
  if_neg h

/-- More fuel changes nothing once a survivor is found. -/
theorem rootWithin_stable {fuel i : Nat} (h : p.Survives (p.rootWithin fuel i)) :
    p.rootWithin (fuel + 1) i = p.rootWithin fuel i := by
  induction fuel generalizing i with
  | zero => exact rootWithin_of_survives h 1
  | succ fuel ih =>
    by_cases hi : p.Survives i
    · rw [rootWithin_of_survives hi, rootWithin_of_survives hi]
    · rw [rootWithin_succ hi] at h
      rw [rootWithin_succ hi, rootWithin_succ hi, ih h]

theorem root_of_survives {i : Nat} (h : p.Survives i) : p.root i = i :=
  rootWithin_of_survives h _

namespace Forest

/-- Only entries of smaller depth lie ahead on the way to a survivor, so their number is fuel
enough. -/
theorem survives_rootWithin (hp : p.Forest) {depth : Nat → Nat}
    (hdepth : ∀ i, ¬ p.Survives i → depth (p.entry i).parent < depth i) {fuel i : Nat}
    (hfuel : ((Finset.range p.entries.length).filter (depth · < depth i)).card ≤ fuel) :
    p.Survives (p.rootWithin fuel i) := by
  induction fuel generalizing i with
  | zero =>
    by_contra hi
    have hmem : (p.entry i).parent ∈
        (Finset.range p.entries.length).filter (depth · < depth i) := by
      simpa using ⟨hp.parent_lt (lt_length_of_not_survives hi), hdepth i hi⟩
    rw [Nat.le_zero, Finset.card_eq_zero] at hfuel
    simp [hfuel] at hmem
  | succ fuel ih =>
    by_cases hi : p.Survives i
    · rwa [rootWithin_of_survives hi]
    · rw [rootWithin_succ hi]
      apply ih
      have hparent := hdepth i hi
      -- the parent itself is ahead of `i`, but not ahead of the parent
      have hss : (Finset.range p.entries.length).filter (depth · < depth (p.entry i).parent) ⊂
          (Finset.range p.entries.length).filter (depth · < depth i) := by
        refine Finset.ssubset_iff_of_subset (fun j hj ↦ ?_) |>.2 ⟨(p.entry i).parent, ?_, ?_⟩
        · simp only [Finset.mem_filter] at hj ⊢
          exact ⟨hj.1, hj.2.trans hparent⟩
        · simpa using ⟨hp.parent_lt (lt_length_of_not_survives hi), hparent⟩
        · simp
      have := Finset.card_lt_card hss
      omega

theorem survives_root (hp : p.Forest) (i : Nat) : p.Survives (p.root i) := by
  obtain ⟨depth, hdepth⟩ := hp.descends
  apply hp.survives_rootWithin hdepth
  simpa using Finset.card_filter_le (Finset.range p.entries.length) (depth · < depth i)

theorem root_root (hp : p.Forest) (i : Nat) : p.root (p.root i) = p.root i :=
  root_of_survives (hp.survives_root i)

theorem find_find (hp : p.Forest) (s : SubgraphId) : p.find (p.find s) = p.find s :=
  congrArg SubgraphId.mk (hp.root_root s.index)

theorem root_parent (hp : p.Forest) (i : Nat) : p.root (p.entry i).parent = p.root i := by
  by_cases hi : p.Survives i
  · rw [hi]
  · obtain ⟨fuel, hfuel⟩ : ∃ fuel, p.entries.length = fuel + 1 :=
      Nat.exists_eq_succ_of_ne_zero (Nat.ne_zero_of_lt (lt_length_of_not_survives hi))
    have hroot : p.root i = p.rootWithin fuel (p.entry i).parent := by
      rw [root, hfuel, rootWithin_succ hi]
    have hsurvives : p.Survives (p.rootWithin fuel (p.entry i).parent) :=
      hroot ▸ hp.survives_root i
    rw [hroot, root, hfuel, rootWithin_stable hsurvives]

/-- Induction from the survivors along the pointers. -/
theorem induction (hp : p.Forest) {motive : Nat → Prop}
    (survivor : ∀ i, p.Survives i → motive i)
    (merged : ∀ i, ¬ p.Survives i → motive (p.entry i).parent → motive i) (i : Nat) :
    motive i := by
  obtain ⟨depth, hdepth⟩ := hp.descends
  induction h : depth i using Nat.strong_induction_on generalizing i with
  | _ d ih =>
    by_cases hi : p.Survives i
    · exact survivor i hi
    · exact merged i hi (ih _ (h ▸ hdepth i hi) _ rfl)

theorem root_lt (hp : p.Forest) {i : Nat} (hi : i < p.entries.length) :
    p.root i < p.entries.length := by
  refine hp.induction (motive := fun i ↦ i < p.entries.length → p.root i < p.entries.length)
    ?_ ?_ i hi
  · intro j hj hlt
    rwa [root_of_survives hj]
  · intro j _ ih hlt
    rw [← hp.root_parent]
    exact ih (hp.parent_lt hlt)

/-- The survivor is determined by being fixed on survivors and constant along pointers. -/
theorem root_eq (hp : p.Forest) {f : Nat → Nat} (fixed : ∀ i, p.Survives i → f i = i)
    (constant : ∀ i, ¬ p.Survives i → f (p.entry i).parent = f i) (i : Nat) :
    p.root i = f i := by
  refine hp.induction (motive := fun i ↦ p.root i = f i) ?_ ?_ i
  · intro i hi
    rw [root_of_survives hi, fixed i hi]
  · intro i hi ih
    rw [← hp.root_parent i, ih, constant i hi]

theorem congr (hp : p.Forest) (hlength : p.entries.length ≤ q.entries.length)
    (hparent : ∀ i, (q.entry i).parent = (p.entry i).parent) : q.Forest where
  parent_lt {i} hi := by
    rw [hparent]
    rcases Nat.lt_or_ge i p.entries.length with h | h
    · exact (hp.parent_lt h).trans_le hlength
    · have hself : (p.entry i).parent = i := survives_of_length_le h
      rwa [hself]
  descends := by
    obtain ⟨depth, hdepth⟩ := hp.descends
    refine ⟨depth, fun i hi ↦ ?_⟩
    rw [hparent]
    exact hdepth i (by rwa [Survives, hparent] at hi)

theorem root_congr (hp : p.Forest) (hlength : p.entries.length ≤ q.entries.length)
    (hparent : ∀ i, (q.entry i).parent = (p.entry i).parent) (i : Nat) :
    q.root i = p.root i := by
  refine (hp.congr hlength hparent).root_eq (fun i hi ↦ root_of_survives ?_) (fun i _ ↦ ?_) i
  · rwa [Survives, ← hparent]
  · rw [hparent, hp.root_parent]

section Hang

variable {winner loser : Nat}

/-- Hanging one survivor under another keeps the forest. -/
theorem hang (hp : p.Forest) (hwinner : p.Survives winner) (hloser : p.Survives loser)
    (hlt : winner < p.entries.length) (hne : winner ≠ loser)
    (hlength : q.entries.length = p.entries.length)
    (hparent : ∀ i, (q.entry i).parent = if i = loser then winner else (p.entry i).parent) :
    q.Forest where
  parent_lt {i} hi := by
    rw [hparent, hlength]
    split
    · exact hlt
    · exact hp.parent_lt (hlength ▸ hi)
  descends := by
    obtain ⟨depth, hdepth⟩ := hp.descends
    -- the tree of the loser moves below the winner as a whole
    refine ⟨fun i ↦ depth i + if p.root i = loser then depth winner + 1 else 0, fun i hi ↦ ?_⟩
    simp only [hparent]
    by_cases h : i = loser
    · rw [if_pos h, root_of_survives hwinner, if_neg hne, h, root_of_survives hloser, if_pos rfl]
      omega
    · have hold : ¬ p.Survives i := by rwa [Survives, hparent, if_neg h] at hi
      rw [if_neg h, hp.root_parent]
      have := hdepth i hold
      omega

/-- Everything that survived as the loser survives as the winner from then on. -/
theorem root_hang (hp : p.Forest) (hwinner : p.Survives winner) (hloser : p.Survives loser)
    (hlt : winner < p.entries.length) (hne : winner ≠ loser)
    (hlength : q.entries.length = p.entries.length)
    (hparent : ∀ i, (q.entry i).parent = if i = loser then winner else (p.entry i).parent)
    (i : Nat) :
    q.root i = if p.root i = loser then winner else p.root i := by
  have hq := hp.hang hwinner hloser hlt hne hlength hparent
  refine hq.root_eq (f := fun i ↦ if p.root i = loser then winner else p.root i) ?_ ?_ i
  · intro i hi
    rw [Survives, hparent] at hi
    by_cases h : i = loser
    · exact absurd ((if_pos h).symm.trans hi) (h ▸ hne)
    · rw [if_neg h] at hi
      rw [root_of_survives hi, if_neg h]
  · intro i _
    simp only [hparent]
    by_cases h : i = loser
    · rw [if_pos h, h, root_of_survives hwinner, root_of_survives hloser, if_neg hne, if_pos rfl]
    · rw [if_neg h, hp.root_parent]

end Hang

end Forest

end SignalFlow.Partition
