import SignalFlow.Proofs.Json.Numbers

/-!
# Doubles that are read

A number is read in steps, each of which rounds: its digits become a double, and that is multiplied
or divided by a power of ten. The product can be too large for a double even where the number is
not. This does not happen to what is written of a double. The decimals of all doubles but the
greatest are so small that they may be cut into a significand and a power of ten anywhere; that of
the greatest has all its digits in the significand.
-/

namespace SignalFlow.Json

open SignalFlow.Numeric

variable {d : Decimal} {s : Significand} {exponent : Int} {power value : Nat}

/-- A division by a power of ten always has a result. -/
theorem exists_scaleByTen_of_neg (x : Double) (h : exponent < 0) (fuel : Nat) :
    ∃ y, scaleByTen? fuel x exponent = some y := by
  have hnonneg : ¬ 0 ≤ exponent := Int.not_le.2 h
  induction fuel generalizing x exponent with
  | zero =>
    unfold scaleByTen?
    simp only [if_neg hnonneg]
    split_ifs <;> exact ⟨_, rfl⟩
  | succ fuel ih =>
    unfold scaleByTen?
    simp only [if_neg hnonneg]
    split_ifs with hsmall hzero
    · exact ⟨_, rfl⟩
    · exact ⟨_, rfl⟩
    · exact ih (x / tenTo 308) (by omega) (by omega)

/-- A power of ten is rounded like any whole number. -/
theorem tenTo_eq_ofNat (power : Nat) : tenTo power = Binary.ofNat binary64 (10 ^ power) := by
  have hleading : ¬ (⟨1, power⟩ : Decimal).leadingExponent <
      -((1 <<< binary64.exponentBits : Nat) : Int) := by
    have hlength : 0 < (⟨1, power⟩ : Decimal).text.length := Nat.length_toDigits_pos
    have hexponent : (⟨1, power⟩ : Decimal).exponent = power := rfl
    refine not_lt.2 ((Int.neg_nonpos_of_nonneg (Int.natCast_nonneg _)).trans ?_)
    rw [Decimal.leadingExponent, hexponent]
    omega
  have hratio : (⟨1, power⟩ : Decimal).ratio binary64.one = (10 ^ power * binary64.one, 1) := by
    simp [Decimal.ratio]
  have hrank := Decimal.rank_eq binary64 ⟨1, power⟩ Nat.one_ne_zero hleading
  rw [hratio] at hrank
  exact ofDecimal_eq_number (binary64.nearestRank_le _ _) hrank false

/-- A significand and a power of ten with a finite product. -/
theorem exists_toDouble_of_isFinite (hpower : power < 309)
    (hfinite : (Binary.ofNat binary64 value * Binary.ofNat binary64 (10 ^ power)).isFinite = true)
    (negative : Bool) : ∃ y, (⟨value, power⟩ : Significand).toDouble negative = .ok y := by
  have hscale (fuel : Nat) : scaleByTen? fuel (Binary.ofNat binary64 value) power =
      some (Binary.ofNat binary64 value * tenTo power) := by
    rw [← tenTo_eq_ofNat] at hfinite
    cases fuel <;> simp [scaleByTen?, hfinite, Nat.lt_succ_iff.1 hpower]
  exact ⟨_, by rw [Significand.toDouble, hscale]⟩

def greatestDecimal : Decimal :=
  ⟨17976931348623157, 292⟩

/-- The decimal of the greatest double but one. -/
def largeDecimal : Decimal :=
  ⟨17976931348623155, 292⟩

/-- The greatest significand that a power of ten makes no more than that decimal of. -/
def largestSignificand (power : Nat) : Nat :=
  min (largeDecimal.digits * 10 ^ 292 / 10 ^ power) greatestNatural

theorem isFinite_largestSignificand : ∀ above < 21,
    (Binary.ofNat binary64 (largestSignificand (288 + above)) *
      Binary.ofNat binary64 (10 ^ (288 + above))).isFinite = true := by
  decide +kernel

/-- Below the powers of the check every significand is small enough. -/
theorem isFinite_of_le_largestSignificand (hpower : power < 309)
    (hvalue : value ≤ largestSignificand power) :
    (Binary.ofNat binary64 value * Binary.ofNat binary64 (10 ^ power)).isFinite = true := by
  rcases Nat.le_total 288 power with hlarge | hsmall
  · obtain ⟨above, rfl⟩ := Nat.exists_eq_add_of_le hlarge
    exact Binary.isFinite_ofNat_mul hvalue le_rfl (isFinite_largestSignificand above (by omega))
  · have hsmall : power ≤ 288 + 0 := hsmall
    have hgreatest : greatestNatural ≤ largestSignificand (288 + 0) := by decide +kernel
    exact Binary.isFinite_ofNat_mul ((hvalue.trans (min_le_right _ _)).trans hgreatest)
      (pow_le_pow_right₀ (by decide) hsmall) (isFinite_largestSignificand 0 (by decide))

/-- Zero is not scaled. -/
theorem exists_toDouble_zero (hpower : 309 ≤ power) (negative : Bool) :
    ∃ y, (⟨0, power⟩ : Significand).toDouble negative = .ok y := by
  have hzero : (Binary.ofNat binary64 0).same (Binary.zero binary64 false) = true := by decide
  have hlarge : ¬ (power : Int).natAbs ≤ 308 := by omega
  have hscale (fuel : Nat) : scaleByTen? fuel (Binary.ofNat binary64 0) power =
      some (Binary.ofNat binary64 0) := by
    cases fuel <;> rw [scaleByTen?, if_neg hlarge, if_pos hzero]
  exact ⟨_, by rw [Significand.toDouble, hscale]⟩

/-- What stands for no more than the greatest double but one is read, however it is cut. -/
theorem Significand.Cuts.exists_toDouble (h : s.Cuts d) (hd : d.value ≤ largeDecimal.value)
    (negative : Bool) : ∃ y, s.toDouble negative = .ok y := by
  obtain ⟨value, exponent⟩ := s
  rcases lt_or_ge exponent 0 with hneg | hnonneg
  · obtain ⟨y, hy⟩ := exists_scaleByTen_of_neg (Binary.ofNat binary64 value) hneg exponent.natAbs
    exact ⟨_, by rw [Significand.toDouble, hy]⟩
  · obtain ⟨power, rfl⟩ := Int.eq_ofNat_of_zero_le hnonneg
    have hle : value * 10 ^ power ≤ largeDecimal.digits * 10 ^ 292 := by
      have hvalue : (value : ℚ) * 10 ^ (power : Int) ≤ largeDecimal.digits * 10 ^ (292 : Int) :=
        h.le.trans hd
      exact_mod_cast hvalue
    rcases Nat.lt_or_ge power 309 with hpower | hpower
    · have hlargest : value ≤ largestSignificand power :=
        le_min ((Nat.le_div_iff_mul_le (Nat.pow_pos (by decide))).2 hle) h.fits
      exact exists_toDouble_of_isFinite hpower
        (isFinite_of_le_largestSignificand hpower hlargest) negative
    · obtain rfl : value = 0 := by
        by_contra hvalue
        have hten : 10 ^ 309 ≤ 10 ^ power := pow_le_pow_right₀ (by decide) hpower
        have hlarge : largeDecimal.digits * 10 ^ 292 < 10 ^ 309 := by decide +kernel
        have hpos := Nat.le_mul_of_pos_left (10 ^ power) (Nat.pos_of_ne_zero hvalue)
        exact absurd (hten.trans (hpos.trans hle)) (Nat.not_le.2 hlarge)
      exact exists_toDouble_zero hpower negative

/-- Zero and all magnitudes but the greatest stand for no more than the greatest one but one. -/
theorem exists_isReal_of_lt {rank : Nat} (hrank : rank < binary64.greatestRank) :
    ∃ d, IsReal (numberLayout.magnitude binary64 rank) d ∧ d.value ≤ largeDecimal.value := by
  have hgreatest : binary64.greatestRank < binary64.infinityRank := by decide
  have hlarge : binary64.shortest numberLayout.tie (binary64.greatestRank - 1) = largeDecimal := by
    decide +kernel
  rcases Nat.eq_zero_or_pos rank with rfl | hpos
  · have hzero : ∀ c ∈ ['0'], c.isDigit = true := List.forall_mem_singleton.2 rfl
    refine ⟨_, .fraction hzero (.inl rfl) (Nat.zero_le _) hzero (List.cons_ne_nil _ _) .nothing, ?_⟩
    have hdigits : digitsValue (['0'] ++ ['0']) = 0 := rfl
    rw [Decimal.value, hdigits, Nat.cast_zero, zero_mul]
    exact mul_nonneg (Nat.cast_nonneg _) (by positivity)
  · obtain ⟨zeros, hreal⟩ := exists_isReal_magnitude hpos (hrank.trans hgreatest)
    refine ⟨_, hreal, ?_⟩
    rw [Decimal.value_pad, ← hlarge]
    exact binary64.value_shortest_mono (by decide) numberLayout.tie hpos
      ((Nat.sub_le _ _).trans hgreatest.le) (Nat.le_sub_one_of_lt hrank)

/-- The greatest magnitude is written with an exponent, and its digits are few enough to be kept. -/
theorem isReal_greatest : IsReal (numberLayout.magnitude binary64 binary64.greatestRank)
    greatestDecimal := by
  have hgreatest : binary64.shortest numberLayout.tie binary64.greatestRank = greatestDecimal := by
    decide +kernel
  have hexponent : ¬ numberLayout.inFull greatestDecimal.leadingExponent = true := by
    decide +kernel
  have hdigits : greatestDecimal.digits ≠ 0 := by decide
  rw [Layout.magnitude, if_neg (by decide), if_neg (by decide), hgreatest]
  dsimp only
  rw [if_neg hexponent]
  exact isReal_scientific rfl hdigits

/-- What is written of a finite magnitude stands for a decimal whose significand, however it is cut,
makes a double. -/
theorem exists_isReal {rank : Nat} (hrank : rank < binary64.infinityRank) :
    ∃ d, IsReal (numberLayout.magnitude binary64 rank) d ∧
      ∀ s : Significand, s.Cuts d → ∀ negative, ∃ y, s.toDouble negative = .ok y := by
  rcases (Nat.le_sub_one_of_lt hrank).lt_or_eq with hlt | rfl
  · obtain ⟨d, hreal, hd⟩ := exists_isReal_of_lt hlt
    exact ⟨d, hreal, fun s hcuts ↦ hcuts.exists_toDouble hd⟩
  · refine ⟨greatestDecimal, isReal_greatest, fun s hcuts negative ↦ ?_⟩
    rw [hcuts.whole (by decide)]
    exact exists_toDouble_of_isFinite (by decide) (by decide +kernel) negative

end SignalFlow.Json
