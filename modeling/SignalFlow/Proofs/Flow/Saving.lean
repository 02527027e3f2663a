import SignalFlow.Flow.Config
import SignalFlow.Proofs.Flow.Directories

/-!
# Saving that fails

A configuration is saved in three steps: the directory of the file is made if it is not there, then
the text is made, then the file is written. Each step can fail, and what the steps before it did is
not taken back. So a save that fails never touches a file, but it may leave the directory of the
file behind, with those on the way to it.
-/

namespace SignalFlow.Flow

variable {c : Config} {fs fs' : FileSystem} {path parent : String} {e : ConfigError}

namespace FileSystem

/-- A path to a file for which a directory has to be made. -/
structure Lacks (fs : FileSystem) (path parent : String) : Prop where
  isParent : Path.parent? path = some parent
  isNamed : parent.isEmpty = false
  isMissing : fs.pathExists parent = false

/-- The directories of a path are all made, or none of them is. -/
def MakesWhole (fs : FileSystem) (path : String) : Prop :=
  ∀ fs' fault, fs.makeDirectories (path.length + 1) path = (fs', .error fault) → fs' = fs

/-- The places above a path: those that its parent, or a path above the parent, leads to. -/
def Above (fs : FileSystem) (path : String) (place : Place) : Prop :=
  ∃ parent, Path.parent? path = some parent ∧ fs.OnWay parent place

/-- The first step of a save succeeds: the directory of a path is made if it has to be. -/
inductive Prepared (fs : FileSystem) (path : String) : FileSystem → Prop
  | asItIs (hready : ∀ parent, ¬ fs.Lacks path parent) : Prepared fs path fs
  | made {parent : String} {fs' : FileSystem} (hlacks : fs.Lacks path parent)
    (hmade : fs.makeDirectories (parent.length + 1) parent = (fs', .ok ())) : Prepared fs path fs'

theorem Prepared.directories (h : fs.Prepared path fs') :
    fs.AddsDirectories fs' (fs'.Above path) := by
  cases h with
  | asItIs hready => exact .refl fs _
  | made hlacks hmade =>
    exact (adds_of_makeDirectories hmade).1.imp fun _ hway ↦ ⟨_, hlacks.isParent, hway⟩

theorem Prepared.unchanged (h : fs.Prepared path fs')
    (hready : ∀ parent, ¬ fs.Lacks path parent) : fs' = fs := by
  cases h with
  | asItIs => rfl
  | made hlacks => exact absurd hlacks (hready _)

theorem Prepared.made_of_lacks (h : fs.Prepared path fs') (hlacks : fs.Lacks path parent) :
    fs.makeDirectories (parent.length + 1) parent = (fs', .ok ()) := by
  cases h with
  | asItIs hready => exact absurd hlacks (hready _)
  | made hlacks' hmade =>
    obtain rfl := Option.some.inj (hlacks.isParent.symm.trans hlacks'.isParent)
    exact hmade

end FileSystem

namespace Config

theorem error_of_toToml (h : c.toToml = .error e) : e = .tomlSerialize := by
  unfold toToml at h
  split at h
  · cases h
  · exact (Except.error.inj h).symm

/-- Where a save fails. -/
inductive SaveFailure (c : Config) (fs : FileSystem) (path : String) :
    FileSystem → ConfigError → Prop
  | unmade {parent : String} {fault : FileFault} {fs' : FileSystem} (hlacks : fs.Lacks path parent)
    (hunmade : fs.makeDirectories (parent.length + 1) parent = (fs', .error fault)) :
    SaveFailure c fs path fs' (.createDir parent fault)
  | unwritable {fs' : FileSystem} (hprepared : fs.Prepared path fs')
    (htoml : c.toToml = .error .tomlSerialize) : SaveFailure c fs path fs' .tomlSerialize
  | unwritten {fs' : FileSystem} {text : String} {fault : FileFault}
    (hprepared : fs.Prepared path fs') (htoml : c.toToml = .ok text)
    (hwrite : fs'.write path text.toUTF8 = .error fault) :
    SaveFailure c fs path fs' (.writeFile path fault)

/-- The last two steps behind the first one. -/
theorem saveFailure_of_prepared {between : FileSystem} (hprepared : fs.Prepared path between)
    (h : (match c.toToml with
      | .error e => (between, .error e)
      | .ok text => match between.write path text.toUTF8 with
        | .error fault => (between, .error (.writeFile path fault))
        | .ok fs => (fs, .ok ())) = (fs', (.error e : Except ConfigError Unit))) :
    SaveFailure c fs path fs' e := by
  split at h
  · next htoml =>
    cases h
    obtain rfl := error_of_toToml htoml
    exact .unwritable hprepared htoml
  · next htoml =>
    split at h
    · next hwrite =>
      cases h
      exact .unwritten hprepared htoml hwrite
    · cases h

theorem saveFailure_of_save (h : c.save fs path = (fs', .error e)) :
    SaveFailure c fs path fs' e := by
  unfold save at h
  simp only at h
  split at h
  · next hnone =>
    exact saveFailure_of_prepared (.asItIs fun parent hlacks ↦ by simp [hlacks.isParent] at hnone) h
  · next parent hparent =>
    split at h
    · next hready =>
      refine saveFailure_of_prepared (.asItIs fun other hlacks ↦ ?_) h
      obtain rfl : parent = other := Option.some.inj (hparent.symm.trans hlacks.isParent)
      simp [hlacks.isNamed, hlacks.isMissing] at hready
    · next hmissing =>
      obtain ⟨hnamed, hmissing⟩ : parent.isEmpty = false ∧ fs.pathExists parent = false := by
        simpa using hmissing
      split at h
      · next hmade => exact saveFailure_of_prepared (.made ⟨hparent, hnamed, hmissing⟩ hmade) h
      · next hunmade =>
        cases h
        exact .unmade ⟨hparent, hnamed, hmissing⟩ hunmade

/-- What is there when a save has failed. -/
structure Aftermath (fs : FileSystem) (path : String) (fs' : FileSystem) (e : ConfigError) :
    Prop where
  /-- The save failed in one of its steps. -/
  reason : (∃ parent fault, e = .createDir parent fault) ∨ e = .tomlSerialize ∨
    ∃ fault, e = .writeFile path fault
  /-- What was there is there as it was. What is new are directories above the path. -/
  directories : fs.AddsDirectories fs' (fs'.Above path)
  /-- Without a directory to be made nothing is changed. -/
  unchanged : (∀ parent, ¬ fs.Lacks path parent) → fs' = fs
  /-- Nothing is changed by directories that are not made, if they are made as a whole. -/
  unmade : ∀ parent fault, e = .createDir parent fault → fs.MakesWhole parent → fs' = fs
  /-- A directory that had to be made stays when the text is not made or not written. -/
  made : ∀ parent, fs.Lacks path parent → (∀ fault, e ≠ .createDir parent fault) →
    fs.makeDirectories (parent.length + 1) parent = (fs', .ok ()) ∧ fs'.isDirectory parent = true

theorem aftermath_of_prepared (h : fs.Prepared path fs')
    (hreason : e = .tomlSerialize ∨ ∃ fault, e = .writeFile path fault) :
    Aftermath fs path fs' e where
  reason := .inr hreason
  directories := h.directories
  unchanged := h.unchanged
  unmade parent fault he := by
    rcases hreason with rfl | ⟨_, rfl⟩ <;> cases he
  made parent hlacks _ := by
    have hmade := h.made_of_lacks hlacks
    exact ⟨hmade, (FileSystem.adds_of_makeDirectories hmade).2 rfl hlacks.isNamed⟩

theorem aftermath_of_unmade {fault : FileFault} (hlacks : fs.Lacks path parent)
    (h : fs.makeDirectories (parent.length + 1) parent = (fs', .error fault)) :
    Aftermath fs path fs' (.createDir parent fault) where
  reason := .inl ⟨parent, fault, rfl⟩
  directories := (FileSystem.adds_of_makeDirectories h).1.imp fun _ hway ↦
    ⟨parent, hlacks.isParent, hway⟩
  unchanged hready := absurd hlacks (hready parent)
  unmade other fault' he hwhole := by
    cases he
    exact hwhole fs' fault h
  made other hlacks' hne := by
    obtain rfl := Option.some.inj (hlacks.isParent.symm.trans hlacks'.isParent)
    exact absurd rfl (hne fault)

/-- A save that fails touches no file. All that it may leave are directories above the path, and
these only if the directory of the path had to be made. -/
theorem failed_save_touches_no_file (h : c.save fs path = (fs', .error e)) :
    Aftermath fs path fs' e := by
  cases saveFailure_of_save h with
  | unmade hlacks hunmade => exact aftermath_of_unmade hlacks hunmade
  | unwritable hprepared => exact aftermath_of_prepared hprepared (.inl rfl)
  | unwritten hprepared => exact aftermath_of_prepared hprepared (.inr ⟨_, rfl⟩)

/-- A configuration with queues of a capacity that no document can hold. -/
def overfull : Config :=
  { standard with options := { Options.standard with queueCapacity := greatestInteger + 1 } }

/-- The directory is made before it turns out that the text cannot be. -/
theorem save_overfull : overfull.save .empty "d/x.toml" =
    (⟨[([['d']], .directory)]⟩, .error .tomlSerialize) := by
  rfl

theorem overfull_aftermath : overfull.save .empty "d/x.toml" =
      (⟨[([['d']], .directory)]⟩, .error .tomlSerialize) ∧
    Aftermath .empty "d/x.toml" ⟨[([['d']], .directory)]⟩ .tomlSerialize :=
  ⟨save_overfull, failed_save_touches_no_file save_overfull⟩

/-- A directory that was not there before is left behind by a text that cannot be made, and by a
file that cannot be written. -/
theorem failed_save_leaves_directory : FileSystem.empty.entry? [['d']] = none ∧
    (∃ fs', overfull.save .empty "d/x.toml" = (fs', .error .tomlSerialize) ∧
      fs'.entry? [['d']] = some .directory) ∧
    ∃ fs', standard.save .empty "d/x/" = (fs', .error (.writeFile "d/x/" .isADirectory)) ∧
      fs'.entry? [['d']] = some .directory :=
  ⟨rfl, ⟨_, save_overfull, rfl⟩, _, rfl, rfl⟩

end Config

end SignalFlow.Flow
