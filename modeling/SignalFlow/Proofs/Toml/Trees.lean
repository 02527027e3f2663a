import SignalFlow.Proofs.NameMap
import SignalFlow.Proofs.Toml.Documents

/-!
# Trees of sections

The tree of a document that was written is made by its sections one after the other. A section makes
a table of its pairs, if they have different keys and the table is not there yet.
-/

namespace SignalFlow.Toml

/-- The pairs of a section with the values that they are read as. -/
def Section.entries (s : Section) : Entries :=
  s.pairs.map fun pair ↦ (pair.1, pair.2.value)

/-- The pairs of a section as they stand in a document. -/
def Section.paths (s : Section) : List (List String × Value) :=
  s.entries.map fun pair ↦ ([pair.1], pair.2)

namespace Entries

def addSection? (entries : Entries) (s : Section) : Option Entries := do
  let key ← s.path.getLast?
  changeAt? (openTable? key s.paths) s.path.dropLast entries

variable {entries : Entries} {key : String}

theorem addSection?_eq {s : Section} {path : List String} (hpath : s.path = path ++ [key])
    (entries : Entries) :
    addSection? entries s = changeAt? (openTable? key s.paths) path entries := by
  simp [addSection?, hpath]

theorem lookup_append_singleton (hkey : entries.lookup key = none) {other : String}
    (hne : other ≠ key) (value : Value) : (entries ++ [(other, value)]).lookup key = none := by
  rw [List.lookup_append, hkey, NameMap.lookup_cons_eq, if_neg hne.symm]
  rfl

theorem insertAt?_new (fresh : Making) (value : Value) (hkey : entries.lookup key = none) :
    insertAt? fresh value true [key] entries = some (entries ++ [(key, value)]) := by
  simp [insertAt?, hkey]

/-- Pairs with new and different keys are put in as they come. -/
theorem insertPairs?_new (fresh : Making) {pairs : Entries}
    (hnew : ∀ pair ∈ pairs, entries.lookup pair.1 = none)
    (hdistinct : pairs.Pairwise fun a b ↦ a.1 ≠ b.1) :
    insertPairs? fresh entries (pairs.map fun pair ↦ ([pair.1], pair.2)) =
      some (entries ++ pairs) := by
  induction pairs generalizing entries with
  | nil => exact congrArg some (List.append_nil _).symm
  | cons pair pairs ih =>
    obtain ⟨hpair, hmore⟩ := List.forall_mem_cons.1 hnew
    obtain ⟨hother, hdistinct⟩ := List.pairwise_cons.1 hdistinct
    have hnext : ∀ later ∈ pairs, (entries ++ [(pair.1, pair.2)]).lookup later.1 = none :=
      fun later hlater ↦ lookup_append_singleton (hmore later hlater) (hother later hlater) pair.2
    calc
      insertPairs? fresh entries ((pair :: pairs).map fun pair ↦ ([pair.1], pair.2)) =
          insertPairs? fresh (entries ++ [pair]) (pairs.map fun pair ↦ ([pair.1], pair.2)) := by
        rw [insertPairs?, List.map_cons, List.foldlM_cons]
        dsimp only
        rw [insertAt?_new fresh pair.2 hpair]
        rfl
      _ = some (entries ++ [pair] ++ pairs) := ih hnext hdistinct
      _ = some (entries ++ pair :: pairs) := congrArg some (List.append_assoc ..)

theorem openTable?_new {s : Section} (hkey : entries.lookup key = none)
    (hdistinct : s.entries.Pairwise fun a b ↦ a.1 ≠ b.1) :
    openTable? key s.paths entries = some (entries ++ [(key, .table .header s.entries)]) := by
  have hinner : insertPairs? .key [] s.paths = some s.entries :=
    insertPairs?_new .key (fun _ _ ↦ rfl) hdistinct
  have herase : erase entries key = entries := by
    refine List.filter_eq_self.2 fun entry hentry ↦ ?_
    exact bne_iff_ne.2 (bne_iff_ne.1 (List.lookup_eq_none_iff.1 hkey entry hentry)).symm
  calc
    openTable? key s.paths entries = (insertPairs? .key [] s.paths).bind fun inner ↦
        some (erase entries key ++ [(key, .table .header inner)]) := by
      rw [openTable?, hkey]
      rfl
    _ = some (erase entries key ++ [(key, .table .header s.entries)]) := by
      rw [hinner, Option.bind_some]
    _ = some (entries ++ [(key, .table .header s.entries)]) := by rw [herase]

end Entries

namespace Document

variable {document : Document}

/-- A document that does not begin with a pair. -/
def Opens (document : Document) : Prop :=
  document.pairs = ([], document)

theorem opens_expressions (sections : List Section) :
    Opens (sections.flatMap Section.expressions) := by
  cases sections with
  | nil => rfl
  | cons s sections => rfl

theorem pairs_append (s : Section) (h : Opens document) :
    pairs (s.pairs.map (fun pair ↦ .pair [pair.1] pair.2.value) ++ document) =
      (s.paths, document) := by
  unfold Section.paths Section.entries
  induction s.pairs with
  | nil => exact h
  | cons pair more ih =>
    rw [List.map_cons, List.cons_append, pairs, ih]
    rfl

/-- The sections of a document are put in one after the other. -/
theorem sections?_expressions {fuel : Nat} {sections : List Section}
    (hfuel : sections.length ≤ fuel) (entries : Entries) :
    sections? fuel entries (sections.flatMap Section.expressions) =
      sections.foldlM Entries.addSection? entries := by
  induction fuel generalizing sections entries with
  | zero =>
    obtain rfl := List.eq_nil_of_length_eq_zero (Nat.le_zero.1 hfuel)
    rfl
  | succ fuel ih =>
    cases sections with
    | nil => rfl
    | cons s sections =>
      have hrest := ih (Nat.le_of_succ_le_succ hfuel)
      have hpairs := pairs_append s (opens_expressions sections)
      rw [List.flatMap_cons, Section.expressions, List.cons_append, sections?, List.foldlM_cons]
      dsimp only
      rw [hpairs, Entries.addSection?]
      cases s.path.getLast? with
      | none => rfl
      | some key =>
        dsimp only [Option.bind_eq_bind, Option.bind_some]
        cases Entries.changeAt? (Entries.openTable? key s.paths) s.path.dropLast entries with
        | none => rfl
        | some entries => exact hrest entries

/-- The tree of a document that was written. -/
theorem tree?_expressions (sections : List Section) :
    tree? (sections.flatMap Section.expressions) = sections.foldlM Entries.addSection? [] := by
  have hopens := opens_expressions sections
  have hfuel : sections.length ≤ (sections.flatMap Section.expressions).length := by
    induction sections with
    | nil => exact Nat.le_refl 0
    | cons s sections ih =>
      have hmore := ih (opens_expressions sections)
      simp only [List.flatMap_cons, List.length_append, List.length_cons, Section.expressions]
      omega
  unfold tree?
  rw [hopens]
  exact sections?_expressions hfuel []

end Document

end SignalFlow.Toml
