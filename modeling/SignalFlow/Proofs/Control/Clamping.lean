import SignalFlow.Control.Schema
import SignalFlow.Proofs.Numeric.Values

/-!
# Whole numbers between bounds

The bounds of a control are doubles, also if its values are whole numbers. Its validator cuts the
bounds off below the point. The whole numbers up to an upper bound are those up to the whole
number that is left of it. Those from a lower bound on are not, if the bound is positive and has
a fraction: then the whole number that is left of it is below it, and what is smaller becomes
this number.
-/

namespace SignalFlow.Control

open SignalFlow.Numeric

/-- A value below the lower bound becomes it, one above the upper bound becomes that, and others
stay. -/
theorem clamp_cases (lower upper value : UInt32) :
    (value < lower ∧ clamp lower upper value = lower) ∨
      (upper < value ∧ clamp lower upper value = upper) ∨
      (lower ≤ value ∧ value ≤ upper ∧ clamp lower upper value = value) := by
  unfold clamp
  split
  · next hlow => exact .inl ⟨hlow, rfl⟩
  · next hlow =>
    split
    · next hhigh => exact .inr (.inl ⟨hhigh, rfl⟩)
    · next hhigh => exact .inr (.inr ⟨UInt32.not_lt.1 hlow, UInt32.not_lt.1 hhigh, rfl⟩)

namespace Spec

variable {spec : Spec} {n m : UInt32}

/-- A whole number that is not below the lower bound. -/
def AboveMin (spec : Spec) (n : UInt32) : Prop :=
  ∀ min, spec.min = some min → min.IsAtMost n.toNat

/-- A whole number that is not above the upper bound. -/
def BelowMax (spec : Spec) (n : UInt32) : Prop :=
  ∀ max, spec.max = some max → max.IsAtLeast n.toNat

/-- A whole number between the bounds. An open side has no bound. -/
structure Admits (spec : Spec) (n : UInt32) : Prop where
  above : spec.AboveMin n
  below : spec.BelowMax n

/-- A lower bound that loses nothing if it is cut off: none, one that is not positive, or a whole
number. -/
def HasWholeMin (spec : Spec) : Prop :=
  ∀ min, spec.min = some min → min.IsAtMost 0 ∨ ∃ k : Nat, min.value? = some (k : EReal)

theorem AboveMin.mono (h : spec.AboveMin n) (hle : n ≤ m) : spec.AboveMin m := fun min hmin ↦
  (h min hmin).mono (UInt32.le_iff_toNat_le.1 hle)

theorem BelowMax.anti (h : spec.BelowMax m) (hle : n ≤ m) : spec.BelowMax n := fun max hmax ↦
  (h max hmax).anti (UInt32.le_iff_toNat_le.1 hle)

def wordMin (spec : Spec) : UInt32 :=
  spec.min.elim 0 Binary.toUInt32

def wordMax (spec : Spec) : UInt32 :=
  spec.max.elim (UInt32.ofNat (UInt32.size - 1)) Binary.toUInt32

theorem validator?_word (hkind : spec.kind = .uint) (hrange : spec.hasRange = true) :
    spec.validator? .word = some (.clamping .word spec.wordMin spec.wordMax) := by
  rw [validator?, hkind, hrange]
  rfl

theorem AboveMin.wordMin_le (h : spec.AboveMin n) : spec.wordMin ≤ n := by
  rw [UInt32.le_iff_toNat_le, wordMin]
  cases hmin : spec.min with
  | none => exact Nat.zero_le _
  | some min => exact Binary.toUInt32_le (h min hmin)

theorem BelowMax.le_wordMax (h : spec.BelowMax n) : n ≤ spec.wordMax := by
  rw [UInt32.le_iff_toNat_le, wordMax]
  cases hmax : spec.max with
  | none => exact Nat.le_sub_one_of_lt n.toNat_lt
  | some max => exact Binary.le_toUInt32 n.toNat_lt (h max hmax)

/-- The whole number that is left of the upper bound is not above it. -/
theorem BelowMax.wordMax (h : spec.BelowMax n) : spec.BelowMax spec.wordMax := by
  intro max hmax
  have hzero : max.IsAtLeast 0 := (h max hmax).anti (Nat.zero_le _)
  rw [Spec.wordMax, hmax]
  exact Binary.isAtLeast_toUInt32 hzero

/-- Every greater number than what is left of the lower bound is above the bound. -/
theorem AboveMin.of_lt (h : spec.AboveMin n) (hlt : spec.wordMin < m) : spec.AboveMin m := by
  intro min hmin
  rw [UInt32.lt_iff_toNat_lt, wordMin, hmin] at hlt
  exact Binary.isAtMost_of_toUInt32_lt (h min hmin).isNaN_eq m.toNat_lt hlt

/-- The whole number that is left of the lower bound is not below it exactly if nothing was cut
off. -/
theorem AboveMin.wordMin_iff (h : spec.AboveMin n) :
    spec.AboveMin spec.wordMin ↔ spec.HasWholeMin := by
  refine forall₂_congr fun min hmin ↦ ?_
  rw [wordMin, hmin]
  exact Binary.isAtMost_toUInt32_iff n.toNat_lt (h min hmin)

section Clamp

variable (h : spec.Admits n)
include h

theorem Admits.wordMin_le_wordMax : spec.wordMin ≤ spec.wordMax :=
  UInt32.le_trans h.above.wordMin_le h.below.le_wordMax

theorem Admits.belowMax_clamp (input : UInt32) :
    spec.BelowMax (clamp spec.wordMin spec.wordMax input) := by
  rcases clamp_cases spec.wordMin spec.wordMax input with
    ⟨-, heq⟩ | ⟨-, heq⟩ | ⟨-, hhigh, heq⟩ <;> rw [heq]
  · exact h.below.wordMax.anti h.wordMin_le_wordMax
  · exact h.below.wordMax
  · exact h.below.wordMax.anti hhigh

/-- A value becomes one that is not below the lower bound exactly if it is none itself, or if
nothing was cut off from the bound. -/
theorem Admits.aboveMin_clamp_iff (input : UInt32) :
    spec.AboveMin (clamp spec.wordMin spec.wordMax input) ↔
      spec.AboveMin input ∨ spec.HasWholeMin := by
  rw [← h.above.wordMin_iff]
  have hmax : spec.AboveMin spec.wordMax := h.above.mono h.below.le_wordMax
  -- a value of the validator can be below the bound only if it is what is left of the bound
  rcases clamp_cases spec.wordMin spec.wordMax input with
    ⟨hlow, heq⟩ | ⟨hhigh, heq⟩ | ⟨hlow, -, heq⟩ <;> rw [heq]
  · exact ⟨.inr, fun hor ↦ hor.elim (fun hinput ↦ hinput.mono (UInt32.le_of_lt hlow)) id⟩
  · exact iff_of_true hmax (.inl (hmax.mono (UInt32.le_of_lt hhigh)))
  · exact ⟨.inl, fun hor ↦ hor.elim id fun hmin ↦ hmin.mono hlow⟩

end Clamp

theorem Admits.clamp_self {input : UInt32} (h : spec.Admits input) :
    clamp spec.wordMin spec.wordMax input = input := by
  rcases clamp_cases spec.wordMin spec.wordMax input with ⟨hlow, -⟩ | ⟨hhigh, -⟩ | ⟨-, -, heq⟩
  · exact absurd h.above.wordMin_le (UInt32.not_le.2 hlow)
  · exact absurd h.below.le_wordMax (UInt32.not_le.2 hhigh)
  · exact heq

end Spec

namespace Schema

variable {schema : Schema} {name : String} {spec : Spec}

/-- The validator of a whole-number control with a range gives a value for each one. It keeps
what is between the bounds, and what it gives is never above the upper bound. It is between the
bounds exactly if the value was not below the lower bound or this bound loses nothing by being
cut off. -/
theorem validated_word_in_range_iff (hspec : schema.get? name = some spec)
    (hkind : spec.kind = .uint) (hrange : spec.hasRange = true) (hsome : ∃ n, spec.Admits n) :
    ∃ validator, schema.validator? name .word = some validator ∧
      ∀ input, ∃ output, validator input = .ok output ∧
        (spec.Admits input → output = input) ∧ spec.BelowMax output ∧
        (spec.Admits output ↔ spec.AboveMin input ∨ spec.HasWholeMin) := by
  obtain ⟨n, hn⟩ := hsome
  refine ⟨.clamping .word spec.wordMin spec.wordMax, ?_, fun input ↦
    ⟨clamp spec.wordMin spec.wordMax input, rfl, Spec.Admits.clamp_self,
      hn.belowMax_clamp input, ?_⟩⟩
  · rw [validator?, hspec, Option.bind_some, Spec.validator?_word hkind hrange]
  · rw [← hn.aboveMin_clamp_iff input]
    exact ⟨fun h ↦ h.above, fun h ↦ ⟨h, hn.belowMax_clamp input⟩⟩

theorem halfRank_lt : 1022 <<< 52 < binary64.infinityRank := by
  decide

def half : Double :=
  .number false (1022 <<< 52) halfRank_lt.le

/-- Whole numbers from 0.5 on. -/
def fromHalf : Spec :=
  ⟨.uint, some half, none⟩

def halfLevel : Schema :=
  ⟨[("level", fromHalf)], by decide⟩

theorem fromHalf_admits_iff {n : UInt32} : fromHalf.Admits n ↔
    Binary.signedUnits binary64 false (1022 <<< 52) ≤ n.toNat * binary64.one := by
  have hbounds : fromHalf.Admits n ↔ half.IsAtMost n.toNat :=
    ⟨fun h ↦ h.above half rfl, fun h ↦ ⟨fun _ hmin ↦ Option.some.inj hmin ▸ h, nofun⟩⟩
  exact hbounds.trans (Binary.isAtMost_number_iff halfRank_lt)

theorem halfLevel_validated :
    (halfLevel.get? "level" = some fromHalf ∧ fromHalf.kind = .uint ∧ fromHalf.hasRange = true ∧
      ∃ n, fromHalf.Admits n) ∧
    ∃ validator, halfLevel.validator? "level" .word = some validator ∧
      ∀ input, ∃ output, validator input = .ok output ∧
        (fromHalf.Admits input → output = input) ∧ fromHalf.BelowMax output ∧
        (fromHalf.Admits output ↔ fromHalf.AboveMin input ∨ fromHalf.HasWholeMin) := by
  have hone : ∃ n, fromHalf.Admits n := ⟨1, fromHalf_admits_iff.2 (by decide +kernel)⟩
  exact ⟨⟨rfl, rfl, rfl, hone⟩, validated_word_in_range_iff rfl rfl rfl hone⟩

/-- Its schema is accepted and 1 is between the bounds, but 0, which is not, is kept. -/
theorem halfLevel_keeps_zero :
    (halfLevel.validate = .ok () ∧ halfLevel.get? "level" = some fromHalf ∧
      fromHalf.kind = .uint ∧ fromHalf.hasRange = true ∧ fromHalf.Admits 1) ∧
    ∃ validator, halfLevel.validator? "level" .word = some validator ∧
      validator 0 = .ok 0 ∧ ¬ fromHalf.Admits 0 :=
  ⟨⟨rfl, rfl, rfl, rfl, fromHalf_admits_iff.2 (by decide +kernel)⟩, _, rfl, by rfl,
    fun h ↦ absurd (fromHalf_admits_iff.1 h) (by decide +kernel)⟩

end Schema

end SignalFlow.Control
