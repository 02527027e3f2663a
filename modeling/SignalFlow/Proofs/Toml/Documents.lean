import SignalFlow.Proofs.Toml.Numbers
import SignalFlow.Proofs.Toml.Texts

/-!
# Documents that are written

A document that is written reads back as its expressions: a header for each section, and a pair for
each of its lines.
-/

namespace SignalFlow.Toml

open SignalFlow.Numeric

variable {t rest : List Char} {path : List String} {key : String} {c : Char} {document : Document}
  {sections : List Section}

def Scalar.value : Scalar → Value
  | .text s => .text s
  | .integer n => .integer n
  | .float x => .float x

/-- A scalar that can be read: integers have 64 bits. -/
def Scalar.Fits : Scalar → Prop
  | .integer n => Int64.minValue.toInt ≤ n ∧ n ≤ Int64.maxValue.toInt
  | _ => True

/-- A section that can be read: its header has some parts, but not too many. -/
structure Section.Fits (s : Section) : Prop where
  path_ne : s.path ≠ []
  path_length : s.path.length < tooMany
  pairs : ∀ pair ∈ s.pairs, pair.2.Fits

def Section.expressions (s : Section) : Document :=
  .header s.path :: s.pairs.map fun pair ↦ .pair [pair.1] pair.2.value

/-- A text whose first character is no blank, no bracket and nothing that is skipped. -/
def Begins (t : List Char) : Prop :=
  ∃ c more, t = c :: more ∧ isBlank c = false ∧ c ∉ ['[', '#', '\r', '\n']

theorem Begins.append (h : Begins t) (rest : List Char) : Begins (t ++ rest) := by
  obtain ⟨c, more, rfl, hc⟩ := h
  exact ⟨c, more ++ rest, rfl, hc⟩

theorem Begins.skipBlanks (h : Begins t) : skipBlanks t = t := by
  obtain ⟨c, more, rfl, hblank, -⟩ := h
  exact List.dropWhile_cons_of_neg (by simp [hblank])

theorem begins_writeForm (s : List Char) (form : Form) : Begins (writeForm s form) := by
  cases form with
  | basic | basicLines => exact ⟨'"', _, rfl, rfl, by decide⟩
  | literal | literalLines => exact ⟨'\'', _, rfl, rfl, by decide⟩

theorem begins_writeKey (s : List Char) : Begins (writeKey s) := by
  unfold writeKey
  dsimp only
  split
  · next hbare =>
    obtain ⟨hne, hall⟩ := bare_iff.1 hbare
    obtain ⟨c, more, rfl⟩ := List.exists_cons_of_ne_nil hne
    have hc := hall c List.mem_cons_self
    have hne (d : Char) (hd : isBare d = false) : c ≠ d := ne_of_passes hc hd
    refine ⟨c, more, rfl, ?_, ?_⟩
    · simp [isBlank, hne ' ' rfl, hne '\t' rfl]
    · simp [hne '[' rfl, hne '#' rfl, hne '\r' rfl, hne '\n' rfl]
  · split
    · exact begins_writeForm s _
    · split <;> exact begins_writeForm s _

theorem begins_writePath (hne : path ≠ []) : Begins (writePath path) := by
  cases path with
  | nil => exact absurd rfl hne
  | cons key path =>
    cases path with
    | nil => exact begins_writeKey _
    | cons next path => exact (begins_writeKey _).append _

theorem skipBlanks_cons (hc : isBlank c = false) (t : List Char) : skipBlanks (c :: t) = c :: t :=
  List.dropWhile_cons_of_neg (by simp [hc])

/-- A path of keys reads back with the blanks behind it. -/
theorem readParts_writePath {fuel : Nat} (hne : path ≠ []) (hlength : path.length ≤ fuel)
    (hbare : ∀ c ∈ rest.head?, isBare c = false) (hpoint : Parts '.' (skipBlanks rest)) :
    readParts fuel (writePath path ++ rest) = some (path, skipBlanks rest) := by
  induction fuel generalizing path with
  | zero => exact absurd (List.eq_nil_of_length_eq_zero (Nat.le_zero.1 hlength)) hne
  | succ fuel ih =>
    have hskip := ((begins_writePath hne).append rest).skipBlanks
    rw [readParts, hskip]
    cases path with
    | nil => exact absurd rfl hne
    | cons key path =>
      cases path with
      | nil =>
        have hpart := readPart_writeKey hbare key.toList
        rw [writePath, hpart, String.ofList_toList]
        dsimp only [Option.bind_eq_bind, Option.bind_some]
        split
        · next heq => exact absurd (congrArg List.head? heq) hpoint
        · rfl
      | cons next path =>
        have hpart : readPart (writeKey key.toList ++ '.' :: (writePath (next :: path) ++ rest)) =
            some (String.ofList key.toList, '.' :: (writePath (next :: path) ++ rest)) :=
          readPart_writeKey (by simp; rfl) key.toList
        have hmore := ih (List.cons_ne_nil next path) (Nat.le_of_succ_le_succ hlength)
        have hwrite : writePath (key :: next :: path) =
            writeKey key.toList ++ '.' :: writePath (next :: path) := by
          rw [writePath]
          exact nofun
        rw [hwrite, List.append_assoc, List.cons_append, hpart, String.ofList_toList]
        dsimp only [Option.bind_eq_bind, Option.bind_some]
        rw [skipBlanks_cons rfl]
        change (readParts fuel (writePath (next :: path) ++ rest)).bind _ = _
        rw [hmore]
        rfl

theorem begins_digits {digits : List Char} (negative : Bool)
    (hdigits : ∀ d ∈ digits, d.isDigit = true) (hne : digits ≠ []) :
    Begins (minus negative ++ digits) := by
  cases negative with
  | true => exact ⟨'-', digits, rfl, rfl, by decide⟩
  | false =>
    obtain ⟨d, more, rfl⟩ := List.exists_cons_of_ne_nil hne
    have hother (c : Char) (hc : c.isDigit = false) : d ≠ c :=
      ne_of_passes (hdigits d List.mem_cons_self) hc
    refine ⟨d, more, rfl, ?_, ?_⟩
    · simp [isBlank, hother ' ' rfl, hother '\t' rfl]
    · simp [hother '[' rfl, hother '#' rfl, hother '\r' rfl, hother '\n' rfl]

theorem begins_write (v : Scalar) : Begins v.write := by
  cases v with
  | text s => exact begins_writeForm _ _
  | integer n =>
    rw [Scalar.write, toList_toString_int]
    exact begins_digits _ isDigit_of_mem_toDigits Nat.toDigits_ne_nil
  | float x =>
    rw [Scalar.write]
    cases x with
    | nan => exact ⟨'n', _, rfl, rfl, by decide⟩
    | number negative rank hbounded =>
      rw [write_number]
      rcases hbounded.lt_or_eq with hfinite | hinfinite
      · obtain ⟨whole, fraction, d, hpointed, -⟩ := exists_pointed_magnitude hfinite
        rw [hpointed.text, ← List.append_assoc]
        exact (begins_digits negative hpointed.whole_digits hpointed.isWhole.ne_nil).append _
      · rw [magnitude_of_infinite hinfinite]
        cases negative <;> exact ⟨_, _, rfl, rfl, by decide⟩

/-- A scalar is read as its value at the end of a line. -/
theorem readValue_write {v : Scalar} (hv : v.Fits) (depth : Nat) (rest : List Char) :
    readValue depth (v.write ++ '\n' :: rest) = some (v.value, '\n' :: rest) := by
  cases v with
  | text s =>
    have hread : readText (writeText s.toList ++ '\n' :: rest) = some (String.ofList s.toList, _) :=
      readText_writeText s.toList nofun nofun
    have hquote : ∃ t, writeText s.toList ++ '\n' :: rest = '"' :: t ∨
        writeText s.toList ++ '\n' :: rest = '\'' :: t := by
      unfold writeText
      cases (Traits.ofText s.toList).form with
      | basic | basicLines => exact ⟨_, .inl rfl⟩
      | literal | literalLines => exact ⟨_, .inr rfl⟩
    rw [Scalar.write]
    obtain ⟨t, heq | heq⟩ := hquote
    all_goals
      rw [heq] at hread ⊢
      rw [readValue, hread, String.ofList_toList]
      rfl
  | integer n => exact readValue_integer depth hv.1 hv.2 rest
  | float x => exact readValue_float depth x rest

theorem readExpression_header (hne : path ≠ []) (hlength : path.length < tooMany)
    (rest : List Char) :
    readExpression ('[' :: writePath path ++ ']' :: '\n' :: rest) =
      some (.header path, '\n' :: rest) := by
  have hkey : readKey (writePath path ++ ']' :: '\n' :: rest) = some (path, ']' :: '\n' :: rest) :=
    readParts_writePath hne (Nat.le_pred_of_lt hlength) (by simp; rfl) nofun
  obtain ⟨c, more, hbegins, -, hc⟩ := begins_writePath hne
  have hbracket : c ≠ '[' := fun heq ↦ hc (heq ▸ List.mem_cons_self)
  rw [hbegins] at hkey ⊢
  unfold readExpression
  simp only [List.cons_append] at hkey ⊢
  split
  · next heq => exact absurd (List.cons.inj (List.cons.inj heq).2).1 hbracket
  · next heq =>
    obtain rfl := (List.cons.inj heq).2
    rw [hkey]
    rfl
  · next hother => exact absurd rfl (hother _)

theorem readExpression_pair (key : String) {v : Scalar} (hv : v.Fits) (rest : List Char) :
    readExpression (writeKey key.toList ++ (" = ".toList ++ (v.write ++ '\n' :: rest))) =
      some (.pair [key] v.value, '\n' :: rest) := by
  have hkey : readKey (writeKey key.toList ++ (" = ".toList ++ (v.write ++ '\n' :: rest))) =
      some ([key], '=' :: ' ' :: (v.write ++ '\n' :: rest)) :=
    readParts_writePath (List.cons_ne_nil key []) (Nat.le_add_left 1 78) (by simp; rfl) nofun
  have hvalue : skipBlanks (' ' :: (v.write ++ '\n' :: rest)) = v.write ++ '\n' :: rest :=
    ((begins_write v).append _).skipBlanks
  have hpair : readPair (readValue (tooMany - 1))
      (writeKey key.toList ++ (" = ".toList ++ (v.write ++ '\n' :: rest))) =
        some (([key], v.value), '\n' :: rest) := by
    unfold readPair
    rw [hkey]
    simp only [expect, Option.bind_eq_bind, Option.bind_some, if_pos, hvalue, readValue_write hv]
    rfl
  obtain ⟨c, more, hbegins, -, hc⟩ := begins_writeKey key.toList
  have hbracket : c ≠ '[' := fun heq ↦ hc (heq ▸ List.mem_cons_self)
  rw [hbegins] at hpair ⊢
  unfold readExpression
  simp only [List.cons_append] at hpair ⊢
  split
  · next heq => exact absurd (List.cons.inj heq).1 hbracket
  · next heq => exact absurd (List.cons.inj heq).1 hbracket
  · rw [hpair]
    rfl

/-- What a text is read as. Any fuel that is enough will do. -/
def ReadsDocument (t : List Char) (document : Document) : Prop :=
  ∀ fuel, t.length < fuel → readExpressions fuel t = some document

namespace ReadsDocument

theorem nil : ReadsDocument [] [] :=
  forall_fuel fun _ _ ↦ rfl

theorem feed (h : ReadsDocument t document) : ReadsDocument ('\n' :: t) document :=
  forall_fuel fun fuel hfuel ↦ h (fuel + 1) (Nat.lt_succ_of_lt hfuel)

theorem line {expression : Expression} (h : ReadsDocument t document) (line : List Char)
    (hline : ∃ c more, line = c :: more ∧ isBlank c = false ∧ c ∉ ['#', '\r', '\n'])
    (hread : readExpression (line ++ '\n' :: t) = some (expression, '\n' :: t)) :
    ReadsDocument (line ++ '\n' :: t) (expression :: document) := by
  obtain ⟨c, more, rfl, hblank, hc⟩ := hline
  refine forall_fuel fun fuel hfuel ↦ ?_
  have hlength : ('\n' :: t).length < fuel := by
    simp only [List.length_append, List.length_cons] at hfuel ⊢
    omega
  have hrest := h.feed fuel hlength
  simp only [List.mem_cons, List.not_mem_nil, or_false, not_or] at hc
  have hskip : skipSpace false (c :: (more ++ '\n' :: t)) = some (c :: (more ++ '\n' :: t)) := by
    simp [skipSpace, hblank, hc]
  rw [List.cons_append] at hread ⊢
  rw [readExpressions, hskip]
  dsimp only [Option.bind_eq_bind, Option.bind_some]
  rw [hread, Option.bind_some, hrest]
  rfl

/-- The line of a pair is read as the pair. -/
theorem pair (h : ReadsDocument t document) (key : String) {v : Scalar} (hv : v.Fits) :
    ReadsDocument (writeKey key.toList ++ (" = ".toList ++ (v.write ++ '\n' :: t)))
      (.pair [key] v.value :: document) := by
  have hread := readExpression_pair key hv t
  obtain ⟨c, more, hbegins, hblank, hc⟩ := (begins_writeKey key.toList)
  have hline := h.line (writeKey key.toList ++ (" = ".toList ++ v.write))
    ⟨c, more ++ (" = ".toList ++ v.write), by rw [hbegins, List.cons_append], hblank,
      fun hmem ↦ hc (List.mem_cons_of_mem _ hmem)⟩
    (by simpa only [List.append_assoc] using hread)
  simpa only [List.append_assoc] using hline

theorem pairs (h : ReadsDocument t document) {pairs : List (String × Scalar)}
    (hpairs : ∀ pair ∈ pairs, pair.2.Fits) :
    ReadsDocument
      (pairs.flatMap (fun (key, value) ↦
        writeKey key.toList ++ " = ".toList ++ value.write ++ ['\n']) ++ t)
      (pairs.map (fun pair ↦ .pair [pair.1] pair.2.value) ++ document) := by
  induction pairs with
  | nil => exact h
  | cons pair pairs ih =>
    obtain ⟨hpair, hmore⟩ := List.forall_mem_cons.1 hpairs
    have hread := (ih hmore).pair pair.1 hpair
    rw [List.flatMap_cons, List.map_cons, List.cons_append]
    simpa only [List.append_assoc, List.cons_append, List.nil_append] using hread

theorem sectionExpressions (h : ReadsDocument t document) {s : Section} (hs : s.Fits) :
    ReadsDocument (s.write ++ t) (s.expressions ++ document) := by
  have hpairs := h.pairs hs.pairs
  have hread := readExpression_header hs.path_ne hs.path_length
    (s.pairs.flatMap (fun (key, value) ↦
      writeKey key.toList ++ " = ".toList ++ value.write ++ ['\n']) ++ t)
  have hline := hpairs.line ('[' :: (writePath s.path ++ [']']))
    ⟨'[', _, rfl, rfl, by decide⟩ (by simpa using hread)
  simpa [Section.write, Section.expressions] using hline

end ReadsDocument

/-- Sections that are written are read as their expressions. -/
theorem readsDocument_writeSections (h : ∀ s ∈ sections, s.Fits) :
    ReadsDocument (writeSections sections) (sections.flatMap Section.expressions) := by
  induction sections with
  | nil => exact .nil
  | cons s sections ih =>
    obtain ⟨hs, hmore⟩ := List.forall_mem_cons.1 h
    cases sections with
    | nil => simpa [writeSections] using ReadsDocument.nil.sectionExpressions hs
    | cons next sections => exact (ih hmore).feed.sectionExpressions hs

/-- A document that is written is read as the expressions of its sections. -/
theorem read?_writeSections (h : ∀ s ∈ sections, s.Fits) :
    Document.read? (writeSections sections) = some (sections.flatMap Section.expressions) := by
  have hread := readsDocument_writeSections h _ (Nat.lt_succ_self _)
  unfold Document.read?
  split
  · next heq =>
    exfalso
    cases sections with
    | nil => cases heq
    | cons s sections => cases sections <;> cases heq
  · exact hread

end SignalFlow.Toml
