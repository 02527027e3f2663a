import Mathlib.Logic.Relation
import SignalFlow.Flow.FileSystem
import SignalFlow.Proofs.Except

/-!
# Directories that are made

Making the directories of a path adds directories where the path and the paths above it lead, and
nothing else: what was there before stays, and no file is put in. This holds also where one of the
directories cannot be made and those before it stay.
-/

namespace SignalFlow.Flow

/-- One path is another, or is reached from it by going from path to parent. -/
def Path.Climbs : String → String → Prop :=
  Relation.ReflTransGen fun path parent ↦ Path.parent? path = some parent

namespace FileSystem

variable {fs fs' fs'' : FileSystem} {place here : Place} {path : String} {names : List (List Char)}
  {result : Except FileFault Unit} {fuel : Nat}

/-- What is put at a place where there was nothing. -/
theorem entry?_put (hnew : fs.entry? place = none) (entry : FileEntry) (other : Place) :
    FileSystem.entry? (fs.put place entry) other =
      if other = place then some entry else fs.entry? other := by
  have hplace : place.isEmpty = false := by
    rw [Bool.eq_false_iff]
    intro hempty
    simp [ entry?, hempty] at hnew
  have hlookup : fs.entries.lookup place = none := by simpa [ entry?, hplace] using hnew
  have hfilter : fs.entries.filter (·.1 != place) = fs.entries :=
    List.filter_eq_self.2 fun e he ↦ (bne_comm ..).trans (List.lookup_eq_none_iff.1 hlookup e he)
  rw [put, hfilter]
  by_cases hother : other = place
  · subst hother
    simp [ entry?, hplace]
  · have hlater : ((place, entry) :: fs.entries).lookup other = fs.entries.lookup other := by
      rw [List.lookup_cons, beq_eq_false_iff_ne.2 hother]
    rw [if_neg hother, entry?, entry?, hlater]

/-- A file system with everything that another one has. -/
def Keeps (fs fs' : FileSystem) : Prop :=
  ∀ place entry, fs.entry? place = some entry → fs'.entry? place = some entry

/-- What is new in a file system are directories, at some of the given places. -/
structure AddsDirectories (fs fs' : FileSystem) (new : Place → Prop) : Prop where
  kept : fs.Keeps fs'
  added : ∀ place entry, fs.entry? place = none → fs'.entry? place = some entry →
    entry = .directory ∧ new place

theorem AddsDirectories.refl (fs : FileSystem) (new : Place → Prop) :
    fs.AddsDirectories fs new where
  kept _ _ h := h
  added place entry hnone hsome := by
    rw [hnone] at hsome
    cases hsome

theorem AddsDirectories.imp {new new' : Place → Prop} (h : fs.AddsDirectories fs' new)
    (himp : ∀ place, new place → new' place) : fs.AddsDirectories fs' new' where
  kept := h.kept
  added place entry hnone hsome := (h.added place entry hnone hsome).imp_right (himp place)

theorem AddsDirectories.trans {new : Place → Prop} (h : fs.AddsDirectories fs' new)
    (h' : fs'.AddsDirectories fs'' new) : fs.AddsDirectories fs'' new where
  kept place entry hsome := h'.kept place entry (h.kept place entry hsome)
  added place entry hnone hsome := by
    cases hbetween : fs'.entry? place with
    | none => exact h'.added place entry hbetween hsome
    | some between =>
      have heq : between = entry :=
        Option.some.inj ((h'.kept place between hbetween).symm.trans hsome)
      exact h.added place entry hnone (heq ▸ hbetween)

theorem addsDirectories_put (hnew : fs.entry? place = none) :
    fs.AddsDirectories (fs.put place .directory) (· = place) where
  kept other entry hsome := by
    have hne : other ≠ place := by
      rintro rfl
      rw [hnew] at hsome
      cases hsome
    rw [entry?_put hnew, if_neg hne, hsome]
  added other entry hnone hsome := by
    rw [entry?_put hnew] at hsome
    split at hsome
    · next heq => exact ⟨(Option.some.inj hsome).symm, heq⟩
    · rw [hnone] at hsome
      cases hsome

/-- Empty names at the end of a path lead nowhere else. -/
theorem walk_blank (hblank : names.all (· == [])) (hne : names ≠ []) :
    fs.walk here names = .ok (here, true) := by
  induction names with
  | nil => contradiction
  | cons name rest ih =>
    obtain ⟨hname, hrest⟩ : name = [] ∧ rest.all (· == []) := by simpa using hblank
    unfold walk
    rw [if_pos (.inl hname)]
    cases rest with
    | nil => rfl
    | cons next rest => exact ih hrest (List.cons_ne_nil _ _)

/-- A path leads to the same place when there are more directories on the way. -/
theorem walk_of_addsDirectories {new : Place → Prop} (hadds : fs.AddsDirectories fs' new)
    {found : Place × Bool} (h : fs.walk here names = .ok found) :
    fs'.walk here names = .ok found := by
  fun_induction fs.walk here names with
  | case1 here => exact h
  | case2 here name rest hstay hlast => rw [walk, if_pos hstay, if_pos hlast, h]
  | case3 here name rest hstay hlast ih => rw [walk, if_pos hstay, if_neg hlast, ih h]
  | case4 here rest hlast hstay => rw [walk, if_neg hstay, if_pos rfl, if_pos hlast, h]
  | case5 here rest hlast hstay ih => rw [walk, if_neg hstay, if_pos rfl, if_neg hlast, ih h]
  | case6 here name rest hstay hup place hlast =>
    rw [walk, if_neg hstay, if_neg hup]
    simp only [if_pos hlast, ← h, place]
  | case7 here name rest hstay hup place hlast hentry ih =>
    have hkept : fs'.entry? (here ++ [name]) = some .directory := hadds.kept _ _ hentry
    rw [walk, if_neg hstay, if_neg hup]
    simp only [if_neg hlast, hkept]
    exact ih h
  | case8 => cases h
  | case9 here name rest hstay hup place hlast hentry hblank =>
    rw [walk, if_neg hstay, if_neg hup]
    simp only [if_neg hlast]
    -- If there is a directory now, the walk goes on through it and stays there.
    cases hnew : fs'.entry? place with
    | none => rw [← h, if_pos hblank]
    | some entry =>
      obtain ⟨rfl, -⟩ := hadds.added place entry hentry hnew
      rw [← h]
      exact walk_blank hblank (by simpa using hlast)
  | case10 => cases h

/-- The place that a path leads to. -/
def LeadsTo (fs : FileSystem) (path : String) (place : Place) : Prop :=
  ∃ asDirectory, fs.resolve path = .ok (place, asDirectory)

theorem LeadsTo.of_addsDirectories {new : Place → Prop} (h : fs.LeadsTo path place)
    (hadds : fs.AddsDirectories fs' new) : fs'.LeadsTo path place := by
  obtain ⟨asDirectory, h⟩ := h
  unfold resolve at h
  split at h
  · cases h
  · next hpath =>
    refine ⟨asDirectory, ?_⟩
    rw [resolve, if_neg hpath]
    exact walk_of_addsDirectories hadds h

theorem LeadsTo.isDirectory (h : fs.LeadsTo path place)
    (hentry : fs.entry? place = some .directory) : fs.isDirectory path = true := by
  obtain ⟨asDirectory, h⟩ := h
  have hfind : fs.find path = .ok .directory := by
    rw [find, h]
    simp only [bind, Except.bind, hentry]
  rw [FileSystem.isDirectory, hfind]

theorem makeDirectory_eq_ok_iff : fs.makeDirectory path = .ok fs' ↔
    ∃ place, fs.LeadsTo path place ∧ fs.entry? place = none ∧ fs' = fs.put place .directory := by
  simp only [makeDirectory, bind_eq_ok_iff, LeadsTo, Prod.exists]
  refine exists_congr fun place ↦ ?_
  rw [exists_and_right]
  refine and_congr_right fun _ ↦ ?_
  cases fs.entry? place <;> simp [eq_comm]

/-- What is made at the place of a path alone. -/
theorem adds_of_makeDirectory (h : fs.makeDirectory path = .ok fs') :
    fs.AddsDirectories fs' (fs'.LeadsTo path) ∧ fs'.isDirectory path = true := by
  obtain ⟨place, hleads, hnew, rfl⟩ := makeDirectory_eq_ok_iff.1 h
  have hadds := addsDirectories_put hnew
  have hleads' := hleads.of_addsDirectories hadds
  refine ⟨hadds.imp fun _ heq ↦ heq ▸ hleads', hleads'.isDirectory ?_⟩
  rw [entry?_put hnew, if_pos rfl]

theorem adds_of_ensureDirectory (h : fs.ensureDirectory path = .ok fs') :
    fs.AddsDirectories fs' (fs'.LeadsTo path) ∧ fs'.isDirectory path = true := by
  unfold ensureDirectory at h
  split at h
  · next hmade =>
    cases h
    exact adds_of_makeDirectory hmade
  · split at h
    · next hdirectory =>
      cases h
      exact ⟨.refl fs _, hdirectory⟩
    · cases h

/-- The places that a path, or one above it, leads to. -/
def OnWay (fs : FileSystem) (path : String) (place : Place) : Prop :=
  ∃ above, Path.Climbs path above ∧ fs.LeadsTo above place

theorem OnWay.of_parent {parent : String} (hparent : Path.parent? path = some parent)
    (h : fs.OnWay parent place) : fs.OnWay path place := by
  obtain ⟨above, hclimbs, hleads⟩ := h
  exact ⟨above, .head hparent hclimbs, hleads⟩

theorem OnWay.of_addsDirectories {new : Place → Prop} (h : fs.OnWay path place)
    (hadds : fs.AddsDirectories fs' new) : fs'.OnWay path place := by
  obtain ⟨above, hclimbs, hleads⟩ := h
  exact ⟨above, hclimbs, hleads.of_addsDirectories hadds⟩

/-- The last step, when all directories on the way are there. -/
theorem adds_of_finish (h : (match fs.ensureDirectory path with
      | .ok fs => (fs, .ok ())
      | .error fault => (fs, .error fault)) = (fs', result)) :
    fs.AddsDirectories fs' (fs'.OnWay path) ∧ (result = .ok () → fs'.isDirectory path = true) := by
  split at h
  · next hensured =>
    cases h
    obtain ⟨hadds, hdirectory⟩ := adds_of_ensureDirectory hensured
    exact ⟨hadds.imp fun _ hleads ↦ ⟨path, .refl, hleads⟩, fun _ ↦ hdirectory⟩
  · cases h
    exact ⟨.refl fs _, nofun⟩

/-- Whether or not they can all be made, directories are added where the path and the paths above
it lead, and nothing else. If they can, the path names a directory in the end. -/
theorem adds_of_makeDirectories (h : fs.makeDirectories fuel path = (fs', result)) :
    fs.AddsDirectories fs' (fs'.OnWay path) ∧
      (result = .ok () → path.isEmpty = false → fs'.isDirectory path = true) := by
  fun_induction fs.makeDirectories fuel path generalizing fs' result with
  | case1 fs path =>
    cases h
    exact ⟨.refl fs _, nofun⟩
  | case2 fuel fs path hempty =>
    cases h
    exact ⟨.refl fs _, fun _ hpath ↦ absurd hempty (Bool.eq_false_iff.1 hpath)⟩
  | case3 fuel fs path =>
    cases h
    exact ⟨.refl fs _, nofun⟩
  | case4 fuel fs path finish _ _ parent hparent between hmade =>
    rename_i ih
    obtain ⟨hbefore, -⟩ := ih hmade
    obtain ⟨hlast, hdirectory⟩ := adds_of_finish h
    refine ⟨(hbefore.imp fun place hway ↦ ?_).trans hlast, fun hok _ ↦ hdirectory hok⟩
    exact (hway.of_parent hparent).of_addsDirectories hlast
  | case5 fuel fs path _ _ parent hparent between fault hfailed ih =>
    cases h
    obtain ⟨hbefore, -⟩ := ih hfailed
    exact ⟨hbefore.imp fun _ hway ↦ hway.of_parent hparent, nofun⟩
  | case6 fuel fs path finish =>
    obtain ⟨hlast, hdirectory⟩ := adds_of_finish h
    exact ⟨hlast, fun hok _ ↦ hdirectory hok⟩

end FileSystem

end SignalFlow.Flow
