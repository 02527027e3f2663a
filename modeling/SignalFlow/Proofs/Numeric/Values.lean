import SignalFlow.Numeric.Binary
import Mathlib.Data.EReal.Basic

/-!
# Values on the real line

Numbers are in order by their values. What is not a number is in no order, and it is not the same
as itself.

A number stands for a real number or for an infinity; not-a-number stands for nothing. Brought
into the range of 32-bit naturals, a number becomes the greatest of them that is at most the
number, or zero if there is none.
-/

namespace SignalFlow.Numeric.Binary

variable {f : Format} {x y : Binary f} {n : Nat} {negative : Bool} {rank : Nat}
  {hbounded : rank ≤ f.infinityRank}

theorem same_self (h : x.isNaN = false) : x.same x = true := by
  cases x with
  | nan => cases h
  | number negative rank hbounded => simp [same, place]

theorem isNaN_of_isFinite (h : x.isFinite = true) : x.isNaN = false := by
  cases x with
  | nan => cases h
  | number negative rank hbounded => rfl

/-- Of two numbers one is at most the other unless the other is less. -/
theorem le_iff : x ≤ y ↔ (x.isNaN = false ∧ y.isNaN = false) ∧ ¬ y < x := by
  change x.atMost y = true ↔ _ ∧ ¬ y.less x = true
  cases x with
  | nan => simp [atMost, less, same, place, isNaN]
  | number =>
    cases y with
    | nan => simp [atMost, less, same, place, isNaN]
    | number =>
      simp only [atMost, less, same, place, isNaN, Bool.or_eq_true, decide_eq_true_eq, beq_iff_eq,
        and_self, true_and]
      omega

noncomputable def value? : Binary f → Option EReal
  | .nan => none
  | .number negative rank _ =>
    some (if rank = f.infinityRank then if negative then ⊥ else ⊤
      else ((signedUnits f negative rank / f.one : ℝ) : EReal))

/-- A number whose value is at most a natural number. -/
def IsAtMost (x : Binary f) (n : Nat) : Prop :=
  ∃ v, x.value? = some v ∧ v ≤ n

/-- A number whose value is at least a natural number. -/
def IsAtLeast (x : Binary f) (n : Nat) : Prop :=
  ∃ v, x.value? = some v ∧ n ≤ v

theorem isAtMost_or_isAtLeast (h : x.isNaN = false) (n : Nat) : x.IsAtMost n ∨ x.IsAtLeast n := by
  cases x with
  | nan => cases h
  | number negative rank hbounded =>
    exact (le_total _ (n : EReal)).imp (fun hle ↦ ⟨_, rfl, hle⟩) fun hle ↦ ⟨_, rfl, hle⟩

theorem le_of_isAtLeast_of_isAtMost {m : Nat} (hleast : x.IsAtLeast m) (hmost : x.IsAtMost n) :
    m ≤ n := by
  obtain ⟨v, hv, hmv⟩ := hleast
  obtain ⟨w, hw, hwn⟩ := hmost
  obtain rfl : v = w := Option.some.inj (hv.symm.trans hw)
  exact_mod_cast hmv.trans hwn

theorem IsAtMost.mono {m : Nat} (h : x.IsAtMost n) (hle : n ≤ m) : x.IsAtMost m := by
  obtain ⟨v, hv, hvn⟩ := h
  exact ⟨v, hv, hvn.trans (by exact_mod_cast hle)⟩

theorem IsAtLeast.anti {m : Nat} (h : x.IsAtLeast m) (hle : n ≤ m) : x.IsAtLeast n := by
  obtain ⟨v, hv, hmv⟩ := h
  exact ⟨v, hv, le_trans (by exact_mod_cast hle) hmv⟩

theorem IsAtMost.isNaN_eq (h : x.IsAtMost n) : x.isNaN = false := by
  cases x with
  | nan =>
    obtain ⟨v, hv, -⟩ := h
    cases hv
  | number => rfl

theorem one_pos (f : Format) : (0 : ℝ) < f.one := by
  rw [Format.one, Nat.one_shiftLeft]
  positivity

theorem value?_of_lt (h : rank < f.infinityRank) : (Binary.number negative rank hbounded).value? =
    some ((signedUnits f negative rank / f.one : ℝ) : EReal) :=
  congrArg some (if_neg h.ne)

/-- A finite number is compared with a whole number by its least positive values. -/
theorem isAtMost_number_iff (h : rank < f.infinityRank) :
    (Binary.number negative rank hbounded).IsAtMost n ↔
      signedUnits f negative rank ≤ n * f.one := by
  simp only [IsAtMost, value?_of_lt h, Option.some.injEq, exists_eq_left']
  rw [← EReal.coe_natCast, EReal.coe_le_coe_iff, div_le_iff₀ (one_pos f)]
  exact_mod_cast Iff.rfl

theorem isAtLeast_number_iff (h : rank < f.infinityRank) :
    (Binary.number negative rank hbounded).IsAtLeast n ↔
      n * f.one ≤ signedUnits f negative rank := by
  simp only [IsAtLeast, value?_of_lt h, Option.some.injEq, exists_eq_left']
  rw [← EReal.coe_natCast, EReal.coe_le_coe_iff, le_div_iff₀ (one_pos f)]
  exact_mod_cast Iff.rfl

theorem isAtMost_zero_of_negative : (Binary.number true rank hbounded).IsAtMost 0 := by
  rcases hbounded.lt_or_eq with hfinite | hinfinite
  · rw [isAtMost_number_iff hfinite, signedUnits, if_pos rfl]
    omega
  · exact ⟨⊥, congrArg some (if_pos hinfinite), bot_le⟩

theorem isAtLeast_of_infinite (h : rank = f.infinityRank) (n : Nat) :
    (Binary.number false rank hbounded).IsAtLeast n :=
  ⟨⊤, congrArg some (if_pos h), le_top⟩

theorem toUInt32_of_lt (h : rank < f.infinityRank) :
    (Binary.number false rank hbounded).toUInt32.toNat =
      min (f.units rank / f.one) (UInt32.size - 1) := by
  rw [toUInt32, wholePart, if_neg h.ne]
  exact UInt32.toNat_ofNat_of_lt' ((Nat.min_le_right _ _).trans_lt (by decide))

theorem toUInt32_of_infinite (h : rank = f.infinityRank) :
    (Binary.number false rank hbounded).toUInt32.toNat = UInt32.size - 1 := by
  rw [toUInt32, wholePart, if_pos h]
  rfl

/-- A positive number of 32 bits is at most the converted number exactly if it is at most the
number. -/
theorem le_toUInt32_iff (hpos : 0 < n) (hlt : n < UInt32.size) :
    n ≤ x.toUInt32.toNat ↔ x.IsAtLeast n := by
  cases x with
  | nan => exact iff_of_false (Nat.not_le.2 hpos) nofun
  | number negative rank hbounded =>
    cases negative with
    | true =>
      refine iff_of_false (Nat.not_le.2 hpos) fun hleast ↦ ?_
      exact Nat.not_le.2 hpos (le_of_isAtLeast_of_isAtMost hleast isAtMost_zero_of_negative)
    | false =>
      rcases hbounded.lt_or_eq with hfinite | hinfinite
      · have hone : 0 < f.one := by exact_mod_cast one_pos f
        have hunits : signedUnits f false rank = f.units rank := rfl
        calc
          n ≤ (number false rank hbounded).toUInt32.toNat ↔ n ≤ f.units rank / f.one := by
            rw [toUInt32_of_lt hfinite, le_min_iff, and_iff_left (Nat.le_sub_one_of_lt hlt)]
          _ ↔ n * f.one ≤ f.units rank := Nat.le_div_iff_mul_le hone
          _ ↔ (number false rank hbounded).IsAtLeast n := by
            rw [isAtLeast_number_iff hfinite, hunits]
            exact_mod_cast Iff.rfl
      · rw [toUInt32_of_infinite hinfinite]
        exact iff_of_true (Nat.le_sub_one_of_lt hlt) (isAtLeast_of_infinite hinfinite n)

/-- A number that is at least a natural number does not become less than it. -/
theorem le_toUInt32 (hlt : n < UInt32.size) (h : x.IsAtLeast n) : n ≤ x.toUInt32.toNat := by
  rcases Nat.eq_zero_or_pos n with rfl | hpos
  · exact Nat.zero_le _
  · exact (le_toUInt32_iff hpos hlt).2 h

/-- A number that is at most a natural number does not become greater than it. -/
theorem toUInt32_le (h : x.IsAtMost n) : x.toUInt32.toNat ≤ n := by
  rcases Nat.eq_zero_or_pos x.toUInt32.toNat with hzero | hpos
  · exact hzero.trans_le (Nat.zero_le n)
  · exact le_of_isAtLeast_of_isAtMost ((le_toUInt32_iff hpos x.toUInt32.toNat_lt).1 le_rfl) h

/-- A number that is not below zero is at least what it becomes. -/
theorem isAtLeast_toUInt32 (h : x.IsAtLeast 0) : x.IsAtLeast x.toUInt32.toNat := by
  rcases Nat.eq_zero_or_pos x.toUInt32.toNat with hzero | hpos
  · rwa [hzero]
  · exact (le_toUInt32_iff hpos x.toUInt32.toNat_lt).1 le_rfl

/-- A natural number that is greater than what a number becomes is greater than the number. -/
theorem isAtMost_of_toUInt32_lt (hnumber : x.isNaN = false) (hlt : n < UInt32.size)
    (h : x.toUInt32.toNat < n) : x.IsAtMost n :=
  (isAtMost_or_isAtLeast hnumber n).resolve_right fun hleast ↦
    Nat.not_le.2 h (le_toUInt32 hlt hleast)

/-- A number that is at most some natural number of 32 bits is at most what it becomes exactly if
it is not positive or a whole number. -/
theorem isAtMost_toUInt32_iff (hlt : n < UInt32.size) (h : x.IsAtMost n) :
    x.IsAtMost x.toUInt32.toNat ↔ x.IsAtMost 0 ∨ ∃ m : Nat, x.value? = some (m : EReal) := by
  constructor
  · rintro ⟨v, hv, hle⟩
    rcases Nat.eq_zero_or_pos x.toUInt32.toNat with hzero | hpos
    · exact .inl ⟨v, hv, hzero ▸ hle⟩
    · obtain ⟨w, hw, hge⟩ := (le_toUInt32_iff hpos x.toUInt32.toNat_lt).1 le_rfl
      obtain rfl : v = w := Option.some.inj (hv.symm.trans hw)
      exact .inr ⟨x.toUInt32.toNat, hv.trans (congrArg some (le_antisymm hle hge))⟩
  · rintro (hzero | ⟨m, hm⟩)
    · exact hzero.mono (Nat.zero_le _)
    · have hleast : x.IsAtLeast m := ⟨m, hm, le_rfl⟩
      have hm' : m < UInt32.size := (le_of_isAtLeast_of_isAtMost hleast h).trans_lt hlt
      exact ⟨m, hm, by exact_mod_cast le_toUInt32 hm' hleast⟩

end SignalFlow.Numeric.Binary
