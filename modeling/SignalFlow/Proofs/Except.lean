import Mathlib.Data.List.Forall2

/-!
# Results that may be refusals

A computation in steps has a result exactly if each step has one. It is refused for what the
first step without a result is refused for.
-/

namespace SignalFlow

variable {ε ε' α β : Type}

theorem bind_eq_ok_iff {x : Except ε α} {next : α → Except ε β} {b : β} :
    x >>= next = .ok b ↔ ∃ a, x = .ok a ∧ next a = .ok b := by
  cases x <;> simp [bind, Except.bind]

theorem bind_eq_error_iff {x : Except ε α} {next : α → Except ε β} {e : ε} :
    x >>= next = .error e ↔ x = .error e ∨ ∃ a, x = .ok a ∧ next a = .error e := by
  cases x <;> simp [bind, Except.bind]

theorem map_eq_ok_iff {x : Except ε α} {change : α → β} {b : β} :
    x.map change = .ok b ↔ ∃ a, x = .ok a ∧ change a = b := by
  cases x <;> simp [Except.map]

theorem map_eq_error_iff {x : Except ε α} {change : α → β} {e : ε} :
    x.map change = .error e ↔ x = .error e := by
  cases x <;> simp [Except.map]

theorem map_bind_except {γ : Type} (x : Except ε α) (next : α → Except ε β) (change : β → γ) :
    (x >>= next).map change = x >>= fun a ↦ (next a).map change := by
  cases x <;> rfl

theorem mapError_eq_ok_iff {x : Except ε α} {change : ε → ε'} {a : α} :
    x.mapError change = .ok a ↔ x = .ok a := by
  cases x with
  | error e =>
    constructor <;> intro h <;> cases h
  | ok b =>
    constructor <;> intro h <;> cases h <;> rfl

/-- A check that refuses if a condition holds. -/
theorem ite_error_eq_ok_iff {c : Prop} [Decidable c] {e : ε} {x : Except ε α} {a : α} :
    (if c then .error e else x) = .ok a ↔ ¬ c ∧ x = .ok a := by
  split
  · next h => simp [h]
  · next h => simp [h]

/-- A row of computations has a row of results exactly if each of them has one. -/
theorem mapM_eq_ok_iff {act : α → Except ε β} {as : List α} {bs : List β} :
    as.mapM act = .ok bs ↔ List.Forall₂ (fun a b ↦ act a = .ok b) as bs := by
  induction as generalizing bs with
  | nil => cases bs <;> simp [pure, Except.pure]
  | cons a as ih =>
    simp only [List.mapM_cons, bind_eq_ok_iff, ih, pure, Except.pure, Except.ok.injEq]
    cases bs with
    | nil => simp
    | cons b bs => simp [and_comm]

theorem exists_mapM_eq_ok_iff {act : α → Except ε β} {as : List α} :
    (∃ bs, as.mapM act = .ok bs) ↔ ∀ a ∈ as, ∃ b, act a = .ok b := by
  simp only [mapM_eq_ok_iff]
  induction as with
  | nil => exact ⟨fun _ ↦ nofun, fun _ ↦ ⟨[], .nil⟩⟩
  | cons a as ih =>
    rw [List.forall_mem_cons, ← ih]
    constructor
    · rintro ⟨bs, h⟩
      cases h with
      | cons hfirst hrest => exact ⟨⟨_, hfirst⟩, ⟨_, hrest⟩⟩
    · rintro ⟨⟨b, hfirst⟩, ⟨bs, hrest⟩⟩
      exact ⟨b :: bs, .cons hfirst hrest⟩

/-- A row of computations is refused for what the first one without a result is refused for. -/
theorem mapM_eq_error_iff {act : α → Except ε β} {as : List α} {e : ε} :
    as.mapM act = .error e ↔ ∃ before a after, as = before ++ a :: after ∧
      (∀ earlier ∈ before, ∃ b, act earlier = .ok b) ∧ act a = .error e := by
  constructor
  · intro h
    induction as with
    | nil => cases h
    | cons first rest ih =>
      rw [List.mapM_cons, bind_eq_error_iff] at h
      rcases h with hfirst | ⟨b, hfirst, h⟩
      · exact ⟨[], first, rest, rfl, nofun, hfirst⟩
      · rcases bind_eq_error_iff.1 h with hrest | ⟨bs, -, hpure⟩
        · obtain ⟨before, a, after, rfl, hbefore, ha⟩ := ih hrest
          exact ⟨first :: before, a, after, rfl, List.forall_mem_cons.2 ⟨⟨b, hfirst⟩, hbefore⟩, ha⟩
        · cases hpure
  · rintro ⟨before, a, after, rfl, hbefore, ha⟩
    obtain ⟨bs, hbs⟩ := exists_mapM_eq_ok_iff.2 hbefore
    rw [List.mapM_append, hbs, List.mapM_cons, ha]
    rfl

theorem exists_eq_error_of_mapM {act : α → Except ε β} {as : List α} {e : ε}
    (h : as.mapM act = .error e) : ∃ a ∈ as, act a = .error e := by
  obtain ⟨before, a, after, rfl, -, ha⟩ := mapM_eq_error_iff.1 h
  exact ⟨a, List.mem_append_right before List.mem_cons_self, ha⟩

end SignalFlow
