import SignalFlow.Flow.Config
import SignalFlow.Proofs.Numeric.Values
import SignalFlow.Proofs.Toml.Trees

/-!
# Configurations that are written

A sound configuration is read back as itself, as long as its integers are not too great to be
written. The document has a table with the options, and one with a table for each control; if there
are no controls it has an empty table, so that nobody takes the usual ones for them.
-/

namespace SignalFlow

open SignalFlow.Numeric SignalFlow.Control

def Control.Spec.HasNumbers (spec : Spec) : Prop :=
  ∀ bound, spec.min = some bound ∨ spec.max = some bound → bound.isNaN = false

theorem Control.Spec.HasNumbers.same_self {spec : Spec} (h : spec.HasNumbers) :
    spec.same spec = true := by
  obtain ⟨kind, min, max⟩ := spec
  have hmin : ∀ bound, min = some bound → bound.same bound = true :=
    fun bound hbound ↦ Binary.same_self (h bound (.inl hbound))
  have hmax : ∀ bound, max = some bound → bound.same bound = true :=
    fun bound hbound ↦ Binary.same_self (h bound (.inr hbound))
  cases min <;> cases max <;> simp_all [Spec.same]

theorem Control.Schema.same_self {schema : Schema}
    (h : ∀ control ∈ schema.entries, control.2.HasNumbers) : schema.same schema = true :=
  NameMap.agree_self fun control hcontrol ↦ (h control hcontrol).same_self

namespace Flow

namespace Config

variable {c : Config}

theorem fits_natCast {n : Nat} (h : n ≤ greatestInteger) : (Toml.Scalar.integer n).Fits := by
  have hgreatest : (greatestInteger : Int) = Int64.maxValue.toInt := rfl
  refine ⟨le_trans (by decide) (Int.natCast_nonneg n), ?_⟩
  omega

def engineSection (c : Config) : Toml.Section :=
  ⟨["engine"],
    [("queue_capacity", .integer c.options.queueCapacity),
      ("data_wait_ms", .integer c.options.dataWait),
      ("thread_name_prefix", .text c.options.threadName)] ++
      (c.logFilter.map fun filter ↦ ("log_filter", .text filter)).toList⟩

def controlSections (c : Config) : List Toml.Section :=
  if c.controls.isEmpty then [⟨["controls"], []⟩] else c.controls.entries.map controlSection

theorem sections_eq (c : Config) : c.sections = c.engineSection :: c.controlSections :=
  rfl

theorem fits_engineSection (hcapacity : c.options.queueCapacity ≤ greatestInteger)
    (hwait : c.options.dataWait ≤ greatestInteger) : c.engineSection.Fits := by
  refine ⟨List.cons_ne_nil _ _, (by decide : 1 < Toml.tooMany), ?_⟩
  have hfilter : ∀ pair ∈ (c.logFilter.map fun filter ↦
      (("log_filter", .text filter) : String × Toml.Scalar)).toList, pair.2.Fits := by
    cases c.logFilter with
    | none => nofun
    | some filter => simp [Toml.Scalar.Fits]
  refine List.forall_mem_append.2 ⟨?_, hfilter⟩
  simp only [List.forall_mem_cons]
  exact ⟨fits_natCast hcapacity, fits_natCast hwait, trivial, nofun⟩

theorem fits_controlSection (control : String × Spec) : (controlSection control).Fits := by
  obtain ⟨name, kind, min, max⟩ := control
  refine ⟨List.cons_ne_nil _ _, (by decide : 2 < Toml.tooMany), ?_⟩
  cases min <;> cases max <;> simp [controlSection, Toml.Scalar.Fits]

theorem fits_sections (hcapacity : c.options.queueCapacity ≤ greatestInteger)
    (hwait : c.options.dataWait ≤ greatestInteger) : ∀ s ∈ c.sections, s.Fits := by
  rw [sections_eq, List.forall_mem_cons]
  refine ⟨fits_engineSection hcapacity hwait, ?_⟩
  unfold controlSections
  split
  · simp only [List.mem_singleton, forall_eq]
    exact ⟨List.cons_ne_nil _ _, (by decide : 1 < Toml.tooMany), nofun⟩
  · intro s hs
    obtain ⟨control, -, rfl⟩ := List.mem_map.1 hs
    exact fits_controlSection control

def controlEntry (control : String × Spec) : String × Toml.Value :=
  (control.1, .table .header (controlSection control).entries)

def controlTable (c : Config) : Toml.Value :=
  if c.controls.isEmpty then .table .header []
  else .table .innerHeader (c.controls.entries.map controlEntry)

def tree (c : Config) : Toml.Entries :=
  [("engine", .table .header c.engineSection.entries), ("controls", c.controlTable)]

theorem distinct_engineSection (c : Config) :
    c.engineSection.entries.Pairwise fun a b ↦ a.1 ≠ b.1 := by
  unfold engineSection
  cases c.logFilter <;> simp [Toml.Section.entries]

theorem distinct_controlSection (control : String × Spec) :
    (controlSection control).entries.Pairwise fun a b ↦ a.1 ≠ b.1 := by
  obtain ⟨name, kind, min, max⟩ := control
  cases min <;> cases max <;> simp [controlSection, Toml.Section.entries]

theorem addSection?_engine (c : Config) : Toml.Entries.addSection? [] c.engineSection =
    some [("engine", .table .header c.engineSection.entries)] := by
  have hpath : c.engineSection.path = [] ++ ["engine"] := rfl
  rw [Toml.Entries.addSection?_eq hpath]
  exact Toml.Entries.openTable?_new rfl c.distinct_engineSection

theorem path_controlSection (control : String × Spec) :
    (controlSection control).path = ["controls"] ++ [control.1] :=
  rfl

/-- A control is put behind those that are in the table of the controls. -/
theorem addSection?_control (engine : Toml.Value) {inner : Toml.Entries} {control : String × Spec}
    (hnew : inner.lookup control.1 = none) :
    Toml.Entries.addSection? [("engine", engine), ("controls", .table .innerHeader inner)]
        (controlSection control) =
      some [("engine", engine),
        ("controls", .table .innerHeader (inner ++ [controlEntry control]))] := by
  have hopen := Toml.Entries.openTable?_new hnew (distinct_controlSection control)
  rw [Toml.Entries.addSection?_eq (path_controlSection control)]
  simp [Toml.Entries.changeAt?, Toml.Entries.replace, NameMap.lookup_cons_eq, hopen, controlEntry]

theorem addSection?_first (engine : Toml.Value) (control : String × Spec) :
    Toml.Entries.addSection? [("engine", engine)] (controlSection control) =
      some [("engine", engine), ("controls", .table .innerHeader [controlEntry control])] := by
  have hopen : Toml.Entries.openTable? control.1 (controlSection control).paths [] =
      some [controlEntry control] :=
    Toml.Entries.openTable?_new rfl (distinct_controlSection control)
  rw [Toml.Entries.addSection?_eq (path_controlSection control)]
  simp [Toml.Entries.changeAt?, NameMap.lookup_cons_eq, hopen, controlEntry]

theorem foldlM_controlSection (engine : Toml.Value) {inner : Toml.Entries}
    {controls : List (String × Spec)}
    (hnew : ∀ control ∈ controls, inner.lookup control.1 = none)
    (hdistinct : controls.Pairwise fun a b ↦ a.1 ≠ b.1) :
    (controls.map controlSection).foldlM Toml.Entries.addSection?
        [("engine", engine), ("controls", .table .innerHeader inner)] =
      some [("engine", engine),
        ("controls", .table .innerHeader (inner ++ controls.map controlEntry))] := by
  induction controls generalizing inner with
  | nil => simp
  | cons control controls ih =>
    obtain ⟨hcontrol, hmore⟩ := List.forall_mem_cons.1 hnew
    obtain ⟨hother, hdistinct⟩ := List.pairwise_cons.1 hdistinct
    have hnext : ∀ later ∈ controls, (inner ++ [controlEntry control]).lookup later.1 = none :=
      fun later hlater ↦
        Toml.Entries.lookup_append_singleton (hmore later hlater) (hother later hlater) _
    calc
      ((control :: controls).map controlSection).foldlM Toml.Entries.addSection?
          [("engine", engine), ("controls", .table .innerHeader inner)] =
          (controls.map controlSection).foldlM Toml.Entries.addSection?
            [("engine", engine),
              ("controls", .table .innerHeader (inner ++ [controlEntry control]))] := by
        rw [List.map_cons, List.foldlM_cons, addSection?_control engine hcontrol]
        rfl
      _ = some [("engine", engine), ("controls",
            .table .innerHeader (inner ++ [controlEntry control] ++ controls.map controlEntry))] :=
        ih hnext hdistinct
      _ = some [("engine", engine), ("controls",
            .table .innerHeader (inner ++ (control :: controls).map controlEntry))] := by
        rw [List.append_assoc]
        rfl

/-- The sections of a configuration make its tree. -/
theorem foldlM_sections (c : Config) :
    c.sections.foldlM Toml.Entries.addSection? [] = some c.tree := by
  have hdistinct : c.controls.entries.Pairwise fun a b ↦ a.1 ≠ b.1 :=
    c.controls.ascending.imp fun hlt ↦ String.ne_of_lt hlt
  rw [sections_eq, List.foldlM_cons, addSection?_engine]
  unfold controlSections tree controlTable NameMap.isEmpty
  dsimp only [Option.bind_eq_bind, Option.bind_some]
  cases hcontrols : c.controls.entries with
  | nil => rfl
  | cons control controls =>
    rw [hcontrols] at hdistinct
    obtain ⟨hother, hdistinct⟩ := List.pairwise_cons.1 hdistinct
    have hnew : ∀ later ∈ controls, [controlEntry control].lookup later.1 = none := by
      intro later hlater
      rw [NameMap.lookup_cons_eq]
      exact if_neg (hother later hlater).symm
    have hrest := foldlM_controlSection (.table .header c.engineSection.entries) hnew hdistinct
    simpa [addSection?_first] using hrest

end Config

namespace Decode

theorem kind?_name (kind : Kind) : kind? (.text kind.name) = some kind := by
  cases kind <;> rfl

theorem natural?_natCast (n : Nat) : natural? (.integer n) = some n := by
  simp [natural?]

/-- The table of a control says what the schema says of it. -/
theorem spec?_controlSection (control : String × Spec) :
    spec? (.table .header (Config.controlSection control).entries) = some control.2 := by
  obtain ⟨name, kind, min, max⟩ := control
  have hkind := kind?_name kind
  cases min <;> cases max <;>
    simp [spec?, fields?, Config.controlSection, Toml.Section.entries, Toml.Scalar.value,
      NameMap.lookup_cons_eq, field, double?, hkind]

/-- The table of the options says what they are, and what the filter is. -/
theorem engine?_engineSection (c : Config) :
    engine? (.table .header c.engineSection.entries) = some (c.options, c.logFilter) := by
  have hcapacity := natural?_natCast c.options.queueCapacity
  have hwait := natural?_natCast c.options.dataWait
  unfold Config.engineSection
  cases c.logFilter <;>
    simp [engine?, fields?, Toml.Section.entries, Toml.Scalar.value, NameMap.lookup_cons_eq, field,
      text?, hcapacity, hwait]

/-- The tables of the controls say what the schema says. -/
theorem mapM_controlEntry (controls : List (String × Spec)) :
    (controls.map Config.controlEntry).mapM
      (fun (name, value) ↦ do some (name, ← spec? value)) = some controls := by
  induction controls with
  | nil => rfl
  | cons control controls ih =>
    rw [List.map_cons, List.mapM_cons, ih]
    dsimp only [Config.controlEntry]
    rw [spec?_controlSection]
    rfl

theorem schema?_controlTable (c : Config) : schema? c.controlTable = some c.controls := by
  unfold Config.controlTable
  split
  · next hempty =>
    have hentries : c.controls.entries = [] := List.isEmpty_iff.1 hempty
    have hsame := NameMap.ofList_entries c.controls
    rw [hentries] at hsame
    exact congrArg some hsame
  · rw [schema?, mapM_controlEntry]
    exact congrArg some (NameMap.ofList_entries c.controls)

/-- The tree of a configuration is decoded to the configuration. -/
theorem config?_tree (c : Config) : config? c.tree = some c := by
  have hengine : c.tree.lookup "engine" = some (.table .header c.engineSection.entries) := rfl
  have hcontrols : c.tree.lookup "controls" = some c.controlTable := rfl
  simp [config?, field, hengine, hcontrols, engine?_engineSection, schema?_controlTable]

end Decode

namespace Config

theorem same_self {c : Config} (h : ∀ control ∈ c.controls.entries, control.2.HasNumbers) :
    c.same c = true := by
  simp [same, Schema.same_self h]

/-- A sound configuration whose integers are not too great can be written, and it is read back as
itself. -/
theorem reads_back (c : Config) (hsound : c.validate = .ok ())
    (hnumbers : ∀ control ∈ c.controls.entries, control.2.HasNumbers)
    (hcapacity : c.options.queueCapacity ≤ 2 ^ 63 - 1)
    (hwait : c.options.dataWait ≤ 2 ^ 63 - 1) :
    ∃ text, c.toToml = .ok text ∧ ofToml text = .ok c ∧ c.same c = true := by
  refine ⟨String.ofList (Toml.writeSections c.sections), if_pos ⟨hcapacity, hwait⟩, ?_,
    same_self hnumbers⟩
  have hdecoded : (Toml.Document.read? (Toml.writeSections c.sections) >>= Toml.Document.tree? >>=
      Decode.config?) = some c := by
    simp only [Toml.read?_writeSections (fits_sections hcapacity hwait), Option.bind_eq_bind,
      Option.bind_some, Toml.Document.tree?_expressions, foldlM_sections, Decode.config?_tree]
  rw [ofToml, String.toList_ofList, hdecoded]
  dsimp only
  rw [hsound]
  rfl

/-- A configuration with names and bounds that are not written plainly. -/
def unusual : Config where
  options := ⟨2 ^ 63 - 1, 0, "two\nlines"⟩
  logFilter := some "\"\"\" '''"
  controls := ⟨[("", ⟨.double, some (Binary.zero binary64 true), none⟩),
    ("a.\"b\"", ⟨.uint, none, some (Binary.infinity binary64 false)⟩)], by decide⟩

theorem unusual_reads_back : unusual.validate = .ok () ∧
    ∃ text, unusual.toToml = .ok text ∧ ofToml text = .ok unusual ∧
      unusual.same unusual = true := by
  have hsound : unusual.validate = .ok () := rfl
  have hnumbers : ∀ control ∈ unusual.controls.entries, control.2.HasNumbers := by
    simp [unusual, Spec.HasNumbers, Binary.isNaN, Binary.zero, Binary.infinity, Binary.ofRank]
  exact ⟨hsound, reads_back unusual hsound hnumbers (by decide) (by decide)⟩

end Config

end Flow

end SignalFlow
