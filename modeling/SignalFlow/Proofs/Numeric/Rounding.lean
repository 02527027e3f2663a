import SignalFlow.Numeric.Decimal
import Mathlib.Tactic.Ring

/-!
# Rounding and reading back

The rank closest to a ratio depends on the value of the ratio only, and the rank closest to a finite
magnitude is its own. So a decimal may be written with more zeros behind its digits, or with fewer,
and the decimal that is chosen for a rank has this rank.
-/

namespace SignalFlow.Numeric

namespace Format

variable (f : Format) {a b k rank : Nat}

theorem divideToEven_mul_right (a b : Nat) (hk : 0 < k) :
    divideToEven (a * k) (b * k) = divideToEven a b := by
  have hquotient : a * k / (b * k) = a / b := Nat.mul_div_mul_right a b hk
  have htwice : 2 * (a * k % (b * k)) = 2 * (a % b) * k := by
    rw [Nat.mul_mod_mul_right, Nat.mul_assoc]
  unfold divideToEven
  simp only [hquotient, htwice, Nat.mul_lt_mul_right hk]

theorem nearestRank_mul_right (a b : Nat) (hk : 0 < k) :
    f.nearestRank (a * k) (b * k) = f.nearestRank a b := by
  have hquotient : a * k / (b * k) = a / b := Nat.mul_div_mul_right a b hk
  unfold nearestRank
  simp only [hquotient, Nat.shiftLeft_eq, Nat.mul_right_comm b k]
  rw [divideToEven_mul_right _ _ hk]

/-- A ratio that is great enough is closest to infinity. -/
theorem nearestRank_of_le (h : 2 ^ (2 ^ f.exponentBits + f.fractionBits) ≤ a / b) :
    f.nearestRank a b = f.infinityRank := by
  have hpos : a / b ≠ 0 := (Nat.lt_of_lt_of_le (Nat.two_pow_pos _) h).ne'
  have hlog : 2 ^ f.exponentBits + f.fractionBits ≤ (a / b).log2 := (Nat.le_log2 hpos).2 h
  have hoctave : 2 ^ f.exponentBits - 1 ≤ (a / b).log2 - f.fractionBits := by omega
  have hle : f.infinityRank ≤ ((a / b).log2 - f.fractionBits) <<< f.fractionBits := by
    unfold infinityRank
    rw [Nat.one_shiftLeft, Nat.shiftLeft_eq, Nat.shiftLeft_eq]
    exact Nat.mul_le_mul_right _ hoctave
  exact Nat.min_eq_right (hle.trans (Nat.le_add_right _ _))

theorem divideToEven_mul_self (n : Nat) (hb : 0 < b) : divideToEven (n * b) b = n := by
  unfold divideToEven
  simp [Nat.mul_div_cancel n hb, hb]

/-- The octave of a rank and its place there: the place has one bit more than the fraction, but for
the first octave, where it may have fewer. -/
theorem exists_octave (rank : Nat) : ∃ octave place, f.units rank = place * 2 ^ octave ∧
    octave * 2 ^ f.fractionBits + place = rank ∧ place < 2 ^ (f.fractionBits + 1) ∧
      (octave = 0 ∨ 2 ^ f.fractionBits ≤ place) := by
  have hsplit := Nat.div_add_mod' rank (2 ^ f.fractionBits)
  have hmod := Nat.mod_lt rank (Nat.two_pow_pos f.fractionBits)
  refine ⟨rank / 2 ^ f.fractionBits - 1,
    rank - (rank / 2 ^ f.fractionBits - 1) * 2 ^ f.fractionBits, ?_, ?_⟩
  · unfold units
    simp only [Nat.shiftLeft_eq, Nat.shiftRight_eq_div_pow]
  · rw [Nat.pow_succ]
    cases hquotient : rank / 2 ^ f.fractionBits with
    | zero =>
      rw [hquotient] at hsplit
      omega
    | succ octave =>
      rw [hquotient, Nat.succ_mul] at hsplit
      simp only [Nat.add_sub_cancel]
      omega

theorem log2_sub_of_place {octave place : Nat} (hlt : place < 2 ^ (f.fractionBits + 1))
    (hle : octave = 0 ∨ 2 ^ f.fractionBits ≤ place) :
    (place * 2 ^ octave).log2 - f.fractionBits = octave := by
  rcases hle with rfl | hle
  · rw [Nat.pow_zero, Nat.mul_one]
    by_cases hzero : place = 0
    · simp [hzero]
    · have hlog := (Nat.log2_lt hzero).2 hlt
      omega
  · have hpos : place ≠ 0 := (Nat.lt_of_lt_of_le (Nat.two_pow_pos _) hle).ne'
    have hlog : (place * 2 ^ octave).log2 = f.fractionBits + octave := by
      rw [Nat.log2_eq_iff (Nat.mul_ne_zero hpos (Nat.two_pow_pos _).ne')]
      constructor
      · rw [Nat.pow_add]
        exact Nat.mul_le_mul_right _ hle
      · rw [Nat.add_right_comm, Nat.pow_add]
        exact Nat.mul_lt_mul_of_pos_right hlt (Nat.two_pow_pos _)
    rw [hlog, Nat.add_sub_cancel_left]

/-- The rank closest to a finite magnitude is its own. -/
theorem nearestRank_units (h : rank ≤ f.infinityRank) : f.nearestRank (f.units rank) 1 = rank := by
  obtain ⟨octave, place, hunits, hrank, hlt, hle⟩ := f.exists_octave rank
  unfold nearestRank
  simp only [Nat.div_one, hunits, f.log2_sub_of_place hlt hle, Nat.shiftLeft_eq, Nat.one_mul]
  rw [divideToEven_mul_self place (Nat.two_pow_pos octave), hrank]
  exact Nat.min_eq_left h

end Format

namespace Decimal

variable (f : Format) (d : Decimal) {rank : Nat}

/-- The same decimal with zeros behind its digits. -/
def pad (d : Decimal) (zeros : Nat) : Decimal :=
  ⟨d.digits * 10 ^ zeros, d.exponent - zeros⟩

theorem text_pad (hd : d.digits ≠ 0) (zeros : Nat) :
    (d.pad zeros).text = d.text ++ List.replicate zeros '0' := by
  unfold pad text
  dsimp only
  induction zeros with
  | zero => simp
  | succ zeros ih =>
    have hpos : 0 < d.digits * 10 ^ zeros :=
      Nat.mul_pos (Nat.pos_of_ne_zero hd) (Nat.pow_pos (by decide))
    have hstep := Nat.toDigits_append_toDigits (b := 10) (d := 0) (by decide) hpos (by decide)
    rw [ih, Nat.add_zero, Nat.mul_comm 10, Nat.mul_assoc, ← Nat.pow_succ] at hstep
    rw [← hstep, Nat.toDigits_zero, List.append_assoc, List.replicate_succ']

theorem leadingExponent_pad (hd : d.digits ≠ 0) (zeros : Nat) :
    (d.pad zeros).leadingExponent = d.leadingExponent := by
  unfold leadingExponent
  rw [d.text_pad hd zeros, List.length_append, List.length_replicate]
  change d.exponent - zeros + _ - 1 = _
  push_cast
  ring

theorem ratio_pad (scale zeros : Nat) : ∃ k, 0 < k ∧
    (d.pad zeros).ratio scale = ((d.ratio scale).1 * k, (d.ratio scale).2 * k) := by
  refine ⟨10 ^ (zeros - d.exponent.toNat), Nat.pow_pos (by decide), ?_⟩
  have hnumerator :
      zeros + (d.exponent - zeros).toNat = d.exponent.toNat + (zeros - d.exponent.toNat) := by
    omega
  have hdenominator :
      (-(d.exponent - zeros)).toNat = (-d.exponent).toNat + (zeros - d.exponent.toNat) := by
    omega
  unfold ratio pad
  simp only [Nat.pow_eq, Prod.mk.injEq]
  constructor
  · calc d.digits * 10 ^ zeros * 10 ^ (d.exponent - zeros).toNat * scale
        = d.digits * 10 ^ (zeros + (d.exponent - zeros).toNat) * scale := by
          rw [Nat.pow_add, Nat.mul_assoc d.digits]
      _ = d.digits * 10 ^ d.exponent.toNat * scale * 10 ^ (zeros - d.exponent.toNat) := by
          rw [hnumerator, Nat.pow_add]
          ring
  · rw [hdenominator, Nat.pow_add]

/-- A decimal with a great exponent is closest to infinity, whether it is computed or not. -/
theorem nearestRank_of_lt (hd : d.digits ≠ 0)
    (h : ((1 <<< f.exponentBits : Nat) : Int) < d.exponent) :
    f.nearestRank (d.ratio f.one).1 (d.ratio f.one).2 = f.infinityRank := by
  rw [Nat.one_shiftLeft] at h
  have hexponent : 2 ^ f.exponentBits ≤ d.exponent.toNat := by
    generalize 2 ^ f.exponentBits = limit at h
    omega
  have hdenominator : (d.ratio f.one).2 = 1 := by
    have hzero : (-d.exponent).toNat = 0 := by
      generalize 2 ^ f.exponentBits = limit at h
      omega
    rw [ratio, hzero]
  have hshift : f.fractionBits ≤ f.unitShift := Nat.le_add_left _ _
  have hten : 2 ^ 2 ^ f.exponentBits ≤ 10 ^ d.exponent.toNat :=
    (Nat.pow_le_pow_right (by decide) hexponent).trans (Nat.pow_le_pow_left (by decide) _)
  refine f.nearestRank_of_le ?_
  rw [hdenominator, Nat.div_one]
  calc 2 ^ (2 ^ f.exponentBits + f.fractionBits)
      = 2 ^ 2 ^ f.exponentBits * 2 ^ f.fractionBits := Nat.pow_add _ _ _
    _ ≤ 10 ^ d.exponent.toNat * 2 ^ f.unitShift :=
      Nat.mul_le_mul hten (Nat.pow_le_pow_right (by decide) hshift)
    _ ≤ d.digits * (10 ^ d.exponent.toNat * 2 ^ f.unitShift) :=
      Nat.le_mul_of_pos_left _ (Nat.pos_of_ne_zero hd)
    _ = (d.ratio f.one).1 := by
      rw [ratio, Format.one, Nat.one_shiftLeft, Nat.mul_assoc]
      rfl

/-- The rank of a decimal that is not too small is the one closest to its ratio. -/
theorem rank_eq (hd : d.digits ≠ 0)
    (h : ¬ d.leadingExponent < -((1 <<< f.exponentBits : Nat) : Int)) :
    d.rank f = f.nearestRank (d.ratio f.one).1 (d.ratio f.one).2 := by
  unfold rank
  dsimp only
  rw [if_neg (not_or.2 ⟨hd, h⟩)]
  split
  · next hgreat => exact (d.nearestRank_of_lt f hd hgreat).symm
  · rfl

theorem rank_pad (zeros : Nat) : (d.pad zeros).rank f = d.rank f := by
  by_cases hd : d.digits = 0
  · have hpad : (d.pad zeros).digits = 0 := by rw [pad, hd, Nat.zero_mul]
    rw [rank, if_pos (.inl hpad), rank, if_pos (.inl hd)]
  · have hpad : (d.pad zeros).digits ≠ 0 := Nat.mul_ne_zero hd (Nat.pow_pos (by decide)).ne'
    have hleading := d.leadingExponent_pad hd zeros
    by_cases hsmall : d.leadingExponent < -((1 <<< f.exponentBits : Nat) : Int)
    · rw [rank, if_pos (.inr (hleading ▸ hsmall)), rank, if_pos (.inr hsmall)]
    · obtain ⟨k, hk, hratio⟩ := d.ratio_pad f.one zeros
      calc
        (d.pad zeros).rank f =
            f.nearestRank ((d.pad zeros).ratio f.one).1 ((d.pad zeros).ratio f.one).2 :=
          rank_eq f _ hpad (by rwa [hleading])
        _ = f.nearestRank (d.ratio f.one).1 (d.ratio f.one).2 := by
          rw [hratio, f.nearestRank_mul_right _ _ hk]
        _ = d.rank f := (rank_eq f d hd hsmall).symm

theorem exists_pad_trim (fuel : Nat) (d : Decimal) : ∃ zeros, d = (d.trim fuel).pad zeros := by
  induction fuel generalizing d with
  | zero => exact ⟨0, by simp [trim, pad]⟩
  | succ fuel ih =>
    unfold trim
    split
    · next htrailing =>
      obtain ⟨zeros, hzeros⟩ := ih ⟨d.digits / 10, d.exponent + 1⟩
      obtain ⟨hdigits, hexponent⟩ := Decimal.mk.inj hzeros
      refine ⟨zeros + 1, ?_⟩
      have hten : d.digits = d.digits / 10 * 10 := by omega
      obtain ⟨digits, exponent⟩ := d
      refine congrArg₂ Decimal.mk ?_ ?_
      · rw [Nat.pow_succ, ← Nat.mul_assoc, ← hdigits]
        exact hten
      · push_cast
        dsimp only at hexponent
        omega
    · exact ⟨0, by simp [pad]⟩

theorem rank_trim (fuel : Nat) : (d.trim fuel).rank f = d.rank f := by
  obtain ⟨zeros, hzeros⟩ := d.exists_pad_trim fuel
  calc (d.trim fuel).rank f = ((d.trim fuel).pad zeros).rank f := (rank_pad f _ zeros).symm
    _ = d.rank f := by rw [← hzeros]

end Decimal

namespace Format

variable (f : Format) {rank : Nat}

theorem units_pos (hpos : 0 < rank) : 0 < f.units rank := by
  obtain ⟨octave, place, hunits, hrank, -, hle⟩ := f.exists_octave rank
  have hplace : 0 < place := by
    rcases hle with rfl | hle
    · omega
    · exact Nat.lt_of_lt_of_le (Nat.two_pow_pos _) hle
  rw [hunits]
  exact Nat.mul_pos hplace (Nat.two_pow_pos _)

/-- The decimal without rounding has its rank. -/
theorem rank_exactDecimal (hshift : f.unitShift ≤ 2 ^ f.exponentBits) (hpos : 0 < rank)
    (h : rank ≤ f.infinityRank) : (f.exactDecimal rank).rank f = rank := by
  have hdigits : (f.exactDecimal rank).digits ≠ 0 :=
    Nat.mul_ne_zero (f.units_pos hpos).ne' (Nat.pow_pos (by decide)).ne'
  have hleading :
      ¬ (f.exactDecimal rank).leadingExponent < -((1 <<< f.exponentBits : Nat) : Int) := by
    have hlength : 0 < (f.exactDecimal rank).text.length := Nat.length_toDigits_pos
    have hexponent : (f.exactDecimal rank).exponent = -f.unitShift := rfl
    rw [Nat.one_shiftLeft, Decimal.leadingExponent, hexponent]
    omega
  have hratio : (f.exactDecimal rank).ratio f.one =
      (f.units rank * 10 ^ f.unitShift, 1 * 10 ^ f.unitShift) := by
    unfold Decimal.ratio exactDecimal one
    have hten : (10 : Nat) ^ f.unitShift = 5 ^ f.unitShift * 2 ^ f.unitShift := by
      rw [← Nat.mul_pow]
    simp [hten, Nat.one_shiftLeft, Nat.mul_assoc]
  calc
    (f.exactDecimal rank).rank f =
        f.nearestRank (f.units rank * 10 ^ f.unitShift) (1 * 10 ^ f.unitShift) := by
      rw [Decimal.rank_eq f _ hdigits hleading, hratio]
    _ = f.nearestRank (f.units rank) 1 :=
      f.nearestRank_mul_right _ _ (Nat.pow_pos (by decide))
    _ = rank := f.nearestRank_units h

/-- The chosen decimal of a rank has this rank. -/
theorem rank_shortest (hshift : f.unitShift ≤ 2 ^ f.exponentBits) (tie : Tie) (hpos : 0 < rank)
    (h : rank ≤ f.infinityRank) : (f.shortest tie rank).rank f = rank := by
  unfold shortest
  dsimp only
  rw [Decimal.rank_trim]
  cases hfound : (List.range 17).findSome?
      fun n : Nat ↦ f.gridPoint? tie rank (f.decimalPlace rank - n - 1) with
  | none => exact f.rank_exactDecimal hshift hpos h
  | some d =>
    obtain ⟨n, -, hpoint⟩ := List.exists_of_findSome?_eq_some hfound
    have hsame := List.find?_some hpoint
    exact beq_iff_eq.1 hsame

/-- The chosen decimal of a positive rank is not zero. -/
theorem digits_shortest_ne_zero (hshift : f.unitShift ≤ 2 ^ f.exponentBits) (tie : Tie)
    (hpos : 0 < rank) (h : rank ≤ f.infinityRank) : (f.shortest tie rank).digits ≠ 0 := by
  intro hzero
  have hrank := f.rank_shortest hshift tie hpos h
  rw [Decimal.rank, if_pos (.inl hzero)] at hrank
  exact hpos.ne hrank

end Format

end SignalFlow.Numeric
