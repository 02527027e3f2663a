import SignalFlow.Flow.Config
import SignalFlow.Proofs.Except
import SignalFlow.Proofs.Numeric.Values

/-!
# Configurations that are read

A configuration that is read has been checked: its queues have room, only numbers have bounds,
and no lower bound is above the upper one. The check asks whether the bounds are the wrong way
round. A bound that is not a number is above nothing and below nothing, so it passes; bounds that
are numbers are in order.
-/

namespace SignalFlow

open SignalFlow.Numeric SignalFlow.Control

namespace Control

/-- What the check of a control asks for: a control that is not a number has no bound, and a lower
bound is not above the upper one. -/
structure Spec.Checked (spec : Spec) : Prop where
  numeric : spec.hasRange = true → spec.kind.isNumeric = true
  ordered : ∀ min max, spec.min = some min → spec.max = some max → ¬ max < min

theorem Spec.check_eq_ok_iff (name : String) {spec : Spec} :
    spec.check name = .ok () ↔ spec.Checked := by
  obtain ⟨kind, min, max⟩ := spec
  unfold check
  constructor
  · intro h
    split at h
    · next hnone =>
      have hrange : min = none ∧ max = none := by simpa [hasRange] using hnone
      obtain ⟨rfl, rfl⟩ := hrange
      exact ⟨nofun, nofun⟩
    · rw [ite_error_eq_ok_iff] at h
      refine ⟨fun _ ↦ by simpa using h.1, ?_⟩
      rintro lower upper rfl rfl
      exact (ite_error_eq_ok_iff.1 h.2).1
  · intro h
    split
    · rfl
    · next hrange =>
      have hnumeric := h.numeric (by simpa using hrange)
      rw [if_neg (by simpa using hnumeric)]
      split
      · next lower upper hmin hmax => exact if_neg (h.ordered lower upper hmin hmax)
      · rfl

theorem Schema.validate_eq_ok_iff {schema : Schema} :
    schema.validate = .ok () ↔ ∀ control ∈ schema.entries, control.2.Checked := by
  unfold validate
  induction schema.entries with
  | nil => simp [pure, Except.pure]
  | cons control controls ih =>
    rw [List.forM, bind_eq_ok_iff, List.forall_mem_cons, ← ih,
      ← Spec.check_eq_ok_iff control.1]
    exact ⟨fun ⟨_, hfirst, hrest⟩ ↦ ⟨hfirst, hrest⟩, fun ⟨hfirst, hrest⟩ ↦ ⟨(), hfirst, hrest⟩⟩

end Control

namespace Flow.Config

variable {c : Config} {text : String}

theorem validate_eq_ok_iff : c.validate = .ok () ↔
    c.options.queueCapacity ≠ 0 ∧ ∀ control ∈ c.controls.entries, control.2.Checked := by
  rw [validate, ite_error_eq_ok_iff, mapError_eq_ok_iff, Schema.validate_eq_ok_iff]

theorem validate_of_ofToml (h : ofToml text = .ok c) : c.validate = .ok () := by
  unfold ofToml at h
  split at h
  · cases h
  · obtain ⟨⟨⟩, hsound, rfl⟩ := map_eq_ok_iff.1 h
    exact hsound

/-- The configuration of a file is that of its text. -/
theorem exists_ofToml_of_load {fs : FileSystem} {path : String} (h : load fs path = .ok c) :
    ∃ text, ofToml text = .ok c := by
  obtain ⟨text, -, htext⟩ := bind_eq_ok_iff.1 h
  exact ⟨text, htext⟩

/-- A configuration with room in its queues, with bounds for numbers only, and with bounds in order
unless one of them is not a number. -/
structure Sane (c : Config) : Prop where
  room : 1 ≤ c.options.queueCapacity
  /-- A switch or a text has no bounds. -/
  unbounded : ∀ control ∈ c.controls.entries,
    control.2.kind = .bool ∨ control.2.kind = .text → control.2.min = none ∧ control.2.max = none
  /-- The bounds of a control are in order exactly if they are numbers. -/
  ordered_iff : ∀ control ∈ c.controls.entries, ∀ min max,
    control.2.min = some min → control.2.max = some max →
      (min ≤ max ↔ min.isNaN = false ∧ max.isNaN = false)

theorem sane_of_validate (h : c.validate = .ok ()) : c.Sane := by
  obtain ⟨hroom, hchecked⟩ := validate_eq_ok_iff.1 h
  refine ⟨Nat.pos_of_ne_zero hroom, fun control hcontrol hkind ↦ ?_,
    fun control hcontrol min max hmin hmax ↦ ?_⟩
  · have hnumeric := (hchecked control hcontrol).numeric
    have hplain : control.2.kind.isNumeric = false := by
      rcases hkind with hkind | hkind <;> rw [hkind] <;> rfl
    simpa [hplain, Spec.hasRange] using hnumeric
  · rw [Binary.le_iff]
    exact and_iff_left ((hchecked control hcontrol).ordered min max hmin hmax)

/-- A configuration that is read from a text or from a file is sane. -/
theorem loaded_is_sane
    (h : (∃ text, ofToml text = .ok c) ∨ ∃ fs path, load fs path = .ok c) : c.Sane := by
  have htext : ∃ text, ofToml text = .ok c :=
    h.elim id fun ⟨_, _, hload⟩ ↦ exists_ofToml_of_load hload
  obtain ⟨text, htext⟩ := htext
  exact sane_of_validate (validate_of_ofToml htext)

/-- A control with a lower bound, and with an upper one that is not a number. -/
def openGain : String :=
  "[controls.gain]\nkind = \"double\"\nmin = 0.0\nmax = nan\n"

def openConfig : Config where
  options := .standard
  logFilter := none
  controls := ⟨[("gain", .ranged .double (Binary.zero binary64 false) .nan)], by decide⟩

theorem ofToml_openGain : ofToml openGain = .ok openConfig := by
  rfl

theorem openConfig_sane : ofToml openGain = .ok openConfig ∧ openConfig.Sane :=
  ⟨ofToml_openGain, loaded_is_sane (.inl ⟨openGain, ofToml_openGain⟩)⟩

/-- It is read, but its lower bound is not at most its upper bound. -/
theorem openConfig_unordered : ofToml openGain = .ok openConfig ∧
    ∃ control ∈ openConfig.controls.entries, ∃ min max,
      control.2.min = some min ∧ control.2.max = some max ∧ ¬ min ≤ max :=
  ⟨ofToml_openGain, _, List.mem_cons_self, _, _, rfl, rfl, by decide⟩

end Flow.Config

end SignalFlow
