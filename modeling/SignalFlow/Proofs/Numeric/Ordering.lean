import SignalFlow.Proofs.Numeric.Rounding
import Mathlib.Algebra.Order.Field.Power
import Mathlib.Data.Nat.Log
import Mathlib.Tactic.FieldSimp
import Mathlib.Tactic.Positivity

/-!
# Rounding keeps the order

Of two ratios the greater one is not rounded to a lesser rank. So neither is the greater of two
decimals, and a product does not become less when a factor becomes greater.
-/

namespace SignalFlow.Numeric

namespace Format

variable (f : Format) {a a' b b' m rank rank' : Nat}

theorem div_le_divideToEven (a b : Nat) : a / b ≤ divideToEven a b := by
  unfold divideToEven
  dsimp only
  split_ifs <;> omega

theorem divideToEven_le_succ (a b : Nat) : divideToEven a b ≤ a / b + 1 := by
  unfold divideToEven
  dsimp only
  split_ifs <;> omega

theorem divideToEven_mono (b : Nat) (h : a ≤ a') : divideToEven a b ≤ divideToEven a' b := by
  rcases (Nat.div_le_div_right h : a / b ≤ a' / b).lt_or_eq with hlt | heq
  · exact (divideToEven_le_succ a b).trans (Nat.le_trans hlt (div_le_divideToEven a' b))
  · have hmod : a % b ≤ a' % b := by
      have hsplit := Nat.div_add_mod a b
      have hsplit' := Nat.div_add_mod a' b
      rw [heq] at hsplit
      omega
    unfold divideToEven
    rw [heq]
    dsimp only
    split_ifs <;> omega

theorem le_divideToEven (hb : 0 < b) (h : m * b ≤ a) : m ≤ divideToEven a b :=
  ((Nat.le_div_iff_mul_le hb).2 h).trans (div_le_divideToEven a b)

theorem divideToEven_le (hb : 0 < b) (h : a ≤ m * b) : divideToEven a b ≤ m :=
  (divideToEven_mono b h).trans (divideToEven_mul_self m hb).le

/-- The octave that a ratio is rounded in. -/
def octave (f : Format) (a b : Nat) : Nat :=
  (a / b).log2 - f.fractionBits

theorem nearestRank_eq (a b : Nat) : f.nearestRank a b =
    min (f.octave a b * 2 ^ f.fractionBits + divideToEven a (b * 2 ^ f.octave a b))
      f.infinityRank := by
  simp only [nearestRank, octave, Nat.shiftLeft_eq]

theorem octave_mono (b : Nat) (h : a ≤ a') : f.octave a b ≤ f.octave a' b := by
  have hlog : (a / b).log2 ≤ (a' / b).log2 := by
    rw [Nat.log2_eq_log_two, Nat.log2_eq_log_two]
    exact Nat.log_mono_right (Nat.div_le_div_right h)
  exact Nat.sub_le_sub_right hlog _

/-- The place of a ratio in its octave has at most one bit more than the fraction, or is the first
one that has two. -/
theorem place_le (hb : 0 < b) (a : Nat) :
    divideToEven a (b * 2 ^ f.octave a b) ≤ 2 ^ (f.fractionBits + 1) := by
  have hlog : (a / b).log2 < f.fractionBits + 1 + f.octave a b := by
    unfold octave
    omega
  have hquotient : a / b < 2 ^ (f.fractionBits + 1 + f.octave a b) := by
    by_cases hzero : a / b = 0
    · rw [hzero]
      exact Nat.two_pow_pos _
    · exact (Nat.log2_lt hzero).1 hlog
  refine divideToEven_le (Nat.mul_pos hb (Nat.two_pow_pos _)) ?_
  rw [Nat.mul_left_comm, ← Nat.pow_add]
  exact ((Nat.div_lt_iff_lt_mul hb).1 hquotient).le.trans (Nat.mul_comm _ _).le

/-- Behind the first octave the place has one bit more than the fraction. -/
theorem le_place (hb : 0 < b) (hoctave : f.octave a b ≠ 0) :
    2 ^ f.fractionBits ≤ divideToEven a (b * 2 ^ f.octave a b) := by
  have hlog : f.fractionBits + f.octave a b ≤ (a / b).log2 := by
    unfold octave at hoctave ⊢
    omega
  have hzero : a / b ≠ 0 := by
    intro hzero
    simp [octave, hzero] at hoctave
  refine le_divideToEven (Nat.mul_pos hb (Nat.two_pow_pos _)) ?_
  rw [Nat.mul_left_comm, ← Nat.pow_add, Nat.mul_comm]
  exact (Nat.le_div_iff_mul_le hb).1 ((Nat.le_log2 hzero).1 hlog)

theorem nearestRank_mono (hb : 0 < b) (h : a ≤ a') : f.nearestRank a b ≤ f.nearestRank a' b := by
  rw [nearestRank_eq, nearestRank_eq]
  refine min_le_min_right _ ?_
  rcases (f.octave_mono b h).lt_or_eq with hlt | heq
  · -- the last place of an octave is the first one of the next
    calc f.octave a b * 2 ^ f.fractionBits + divideToEven a (b * 2 ^ f.octave a b)
        ≤ f.octave a b * 2 ^ f.fractionBits + 2 ^ (f.fractionBits + 1) :=
          Nat.add_le_add_left (f.place_le hb a) _
      _ = (f.octave a b + 1) * 2 ^ f.fractionBits + 2 ^ f.fractionBits := by ring
      _ ≤ f.octave a' b * 2 ^ f.fractionBits + divideToEven a' (b * 2 ^ f.octave a' b) :=
          Nat.add_le_add (Nat.mul_le_mul_right _ hlt)
            (f.le_place hb (Nat.pos_iff_ne_zero.1 (Nat.zero_lt_of_lt hlt)))
  · rw [heq]
    exact Nat.add_le_add_left (divideToEven_mono _ h) _

/-- A ratio that is not greater is not rounded to a greater rank. -/
theorem nearestRank_le_nearestRank (hb : 0 < b) (hb' : 0 < b') (h : a * b' ≤ a' * b) :
    f.nearestRank a b ≤ f.nearestRank a' b' := by
  calc f.nearestRank a b = f.nearestRank (a * b') (b * b') := (f.nearestRank_mul_right a b hb').symm
    _ ≤ f.nearestRank (a' * b) (b * b') := f.nearestRank_mono (Nat.mul_pos hb hb') h
    _ = f.nearestRank a' b' := by rw [Nat.mul_comm b b', f.nearestRank_mul_right a' b' hb]

theorem units_mono (hrank : rank' ≤ f.infinityRank) (h : rank ≤ rank') :
    f.units rank ≤ f.units rank' := by
  by_contra hgreater
  have hle := f.nearestRank_mono Nat.one_pos (Nat.not_le.1 hgreater).le
  rw [f.nearestRank_units hrank, f.nearestRank_units (h.trans hrank)] at hle
  exact hgreater (Nat.le_antisymm h hle ▸ le_rfl)

end Format

namespace Binary

variable {f : Format} {s t : Bool} {a b : Nat}

theorem isFinite_infinity (f : Format) (negative : Bool) :
    (infinity f negative).isFinite = false := by
  simp [infinity, ofRank, isFinite]

theorem isFinite_mul_iff {ha : a ≤ f.infinityRank} {hb : b ≤ f.infinityRank} :
    (Binary.number s a ha * Binary.number t b hb).isFinite = true ↔
      a ≠ f.infinityRank ∧ b ≠ f.infinityRank ∧
        f.nearestRank (f.units a * f.units b) f.one < f.infinityRank := by
  change (multiply (.number s a ha) (.number t b hb)).isFinite = true ↔ _
  unfold multiply
  dsimp only
  split_ifs with hinfinite hzero
  · exact iff_of_false (by simp [isFinite]) fun h ↦ hinfinite.elim h.1 h.2.1
  · exact iff_of_false (by simp [isFinite_infinity]) fun h ↦ hinfinite.elim h.1 h.2.1
  · obtain ⟨hne, hne'⟩ := not_or.1 hinfinite
    simp [ofUnits, isFinite, hne, hne']

/-- A finite product of whole numbers stays finite for lesser factors. -/
theorem isFinite_ofNat_mul {m m' n n' : Nat} (hm : m ≤ m') (hn : n ≤ n')
    (hfinite : (ofNat f m' * ofNat f n').isFinite = true) :
    (ofNat f m * ofNat f n).isFinite = true := by
  have hrank {k k' : Nat} (h : k ≤ k') :
      f.nearestRank (k * f.one) 1 ≤ f.nearestRank (k' * f.one) 1 :=
    f.nearestRank_mono Nat.one_pos (Nat.mul_le_mul_right _ h)
  have hlt {k k' : Nat} (h : k ≤ k') (hne : f.nearestRank (k' * f.one) 1 ≠ f.infinityRank) :
      f.nearestRank (k * f.one) 1 ≠ f.infinityRank :=
    ((hrank h).trans_lt ((f.nearestRank_le _ _).lt_of_ne hne)).ne
  have hunits {k k' : Nat} (h : k ≤ k') := f.units_mono (f.nearestRank_le _ _) (hrank h)
  have hone : 0 < f.one := by
    rw [Format.one, Nat.one_shiftLeft]
    exact Nat.two_pow_pos _
  obtain ⟨hne, hne', hproduct⟩ := isFinite_mul_iff.1 hfinite
  refine isFinite_mul_iff.2 ⟨hlt hm hne, hlt hn hne', lt_of_le_of_lt ?_ hproduct⟩
  exact f.nearestRank_mono hone (Nat.mul_le_mul (hunits hm) (hunits hn))

end Binary

namespace Decimal

variable (f : Format) {d d' : Decimal}

def value (d : Decimal) : ℚ :=
  d.digits * 10 ^ d.exponent

theorem value_mul (d : Decimal) (scale : Nat) :
    d.value * scale = (d.ratio scale).1 / (d.ratio scale).2 := by
  have hpower : (10 : ℚ) ^ d.exponent = 10 ^ d.exponent.toNat / 10 ^ (-d.exponent).toNat := by
    calc
      (10 : ℚ) ^ d.exponent = 10 ^ ((d.exponent.toNat : Int) - (-d.exponent).toNat) := by
        rw [Int.toNat_sub_toNat_neg]
      _ = 10 ^ d.exponent.toNat / 10 ^ (-d.exponent).toNat := by
        rw [zpow_sub₀ (by norm_num), zpow_natCast, zpow_natCast]
  rw [value, hpower, ratio]
  simp only [Nat.pow_eq]
  push_cast
  ring

theorem value_pad (d : Decimal) (zeros : Nat) : (d.pad zeros).value = d.value := by
  rw [value, value, pad]
  dsimp only
  rw [zpow_sub₀ (by norm_num), zpow_natCast]
  push_cast
  field_simp

theorem value_mono {m n : Nat} (exponent : Int) (h : m ≤ n) :
    (⟨m, exponent⟩ : Decimal).value ≤ (⟨n, exponent⟩ : Decimal).value :=
  mul_le_mul_of_nonneg_right (by exact_mod_cast h) (by positivity)

/-- Digits may be cut off if their number is added to the exponent. -/
theorem value_cut {m n : Nat} (exponent : Int) (cut : Nat) (h : m * 10 ^ cut ≤ n) :
    (⟨m, exponent + cut⟩ : Decimal).value ≤ (⟨n, exponent⟩ : Decimal).value := by
  have hpad : (⟨m, exponent + cut⟩ : Decimal).pad cut = ⟨m * 10 ^ cut, exponent⟩ := by
    rw [pad, Int.add_sub_cancel]
  calc
    (⟨m, exponent + cut⟩ : Decimal).value = (pad ⟨m, exponent + cut⟩ cut).value :=
      (value_pad _ cut).symm
    _ = (⟨m * 10 ^ cut, exponent⟩ : Decimal).value := by rw [hpad]
    _ ≤ (⟨n, exponent⟩ : Decimal).value := value_mono exponent h

/-- A power of ten is moved from decimals on both sides. -/
theorem value_shift {d d' : Decimal} (scale : Int) (h : d.value ≤ d'.value) :
    (⟨d.digits, d.exponent + scale⟩ : Decimal).value ≤
      (⟨d'.digits, d'.exponent + scale⟩ : Decimal).value := by
  have hshift (d : Decimal) :
      (⟨d.digits, d.exponent + scale⟩ : Decimal).value = d.value * 10 ^ scale := by
    rw [value, value, zpow_add₀ (by norm_num), mul_assoc]
  calc
    (⟨d.digits, d.exponent + scale⟩ : Decimal).value = d.value * 10 ^ scale := hshift d
    _ ≤ d'.value * 10 ^ scale := mul_le_mul_of_nonneg_right h (by positivity)
    _ = (⟨d'.digits, d'.exponent + scale⟩ : Decimal).value := (hshift d').symm

theorem nearestRank_ratio_mono (h : d.value ≤ d'.value) :
    f.nearestRank (d.ratio f.one).1 (d.ratio f.one).2 ≤
      f.nearestRank (d'.ratio f.one).1 (d'.ratio f.one).2 := by
  have hpos (d : Decimal) : 0 < (d.ratio f.one).2 := Nat.pow_pos (by decide)
  refine f.nearestRank_le_nearestRank (hpos d) (hpos d') ?_
  have hscaled : d.value * f.one ≤ d'.value * f.one :=
    mul_le_mul_of_nonneg_right h (Nat.cast_nonneg _)
  rw [value_mul, value_mul, div_le_div_iff₀ (by exact_mod_cast hpos d) (by exact_mod_cast hpos d')]
    at hscaled
  exact_mod_cast hscaled

theorem rank_eq_of_ne_zero (h : d.rank f ≠ 0) :
    d.rank f = f.nearestRank (d.ratio f.one).1 (d.ratio f.one).2 := by
  have hlarge : ¬ (d.digits = 0 ∨ d.leadingExponent < -((1 <<< f.exponentBits : Nat) : Int)) := by
    intro hsmall
    exact h (if_pos hsmall)
  obtain ⟨hdigits, hleading⟩ := not_or.1 hlarge
  exact d.rank_eq f hdigits hleading

end Decimal

/-- The decimals that are chosen for ranks are in the order of the ranks. -/
theorem Format.value_shortest_mono (f : Format) (hshift : f.unitShift ≤ 2 ^ f.exponentBits)
    (tie : Tie) {rank rank' : Nat} (hpos : 0 < rank) (hrank' : rank' ≤ f.infinityRank)
    (h : rank ≤ rank') : (f.shortest tie rank).value ≤ (f.shortest tie rank').value := by
  by_contra hgreater
  have hsame := f.rank_shortest hshift tie hpos (h.trans hrank')
  have hsame' := f.rank_shortest hshift tie (hpos.trans_le h) hrank'
  have hle := Decimal.nearestRank_ratio_mono f (not_le.1 hgreater).le
  rw [← Decimal.rank_eq_of_ne_zero f (by omega), ← Decimal.rank_eq_of_ne_zero f (by omega), hsame,
    hsame'] at hle
  obtain rfl : rank = rank' := Nat.le_antisymm h hle
  exact hgreater le_rfl

end SignalFlow.Numeric
