import SignalFlow.Proofs.Text
import SignalFlow.Toml.Document
import SignalFlow.Toml.Writer
import Mathlib.Data.List.TakeDrop

/-!
# Texts in documents

The characters that a text between double quotes cannot have are written by escapes, and an
escape reads back as its character. So a text that is written reads back as itself, in whichever
form it is written, and so does a part of a key. In a text of several lines up to two quotes in a
row may stand for themselves. They are read at once when the next character comes, or together
with the quotes that close the text.
-/

namespace SignalFlow.Toml

variable {s t cs rest : List Char} {c quote : Char} {escapes : Bool} {run : Nat}

/-- A character that is written by an escape between double quotes. -/
def IsEscaped (c : Char) : Prop :=
  c = '"' ∨ c = '\\' ∨ c = '\t' ∨ isPlain c = false

/-- The digits of a code below 128 give the character of this code. -/
theorem ofCode?_codeDigits {n : Nat} (hn : n < 128) :
    ofCode? (codeDigits n) = some (Char.ofNat n) := by
  revert n
  decide

theorem toNat_lt_of_isPlain (h : isPlain c = false) : c.toNat < 128 := by
  unfold isPlain at h
  grind

/-- What stands behind the backslash of an escape is read as the character, and does not end the
line. -/
structure Escapes (c : Char) (e : List Char) : Prop where
  escape : escape c = '\\' :: e
  read : ∀ t, readEscape (e ++ t) = some (c, t)
  line : ∀ t, skipLineEnd? (e ++ t) = none

theorem exists_escapes (h : IsEscaped c) : ∃ e, Escapes c e := by
  cases hletter : escapeLetter? c with
  | some letter =>
    refine ⟨[letter], by rw [escape, hletter], ?_, ?_⟩
    all_goals
      unfold escapeLetter? at hletter
      split at hletter
      all_goals cases hletter <;> exact fun t ↦ rfl
  | none =>
    have hplain : isPlain c = false := by
      rcases h with rfl | rfl | rfl | h
      · cases hletter
      · cases hletter
      · cases hletter
      · exact h
    refine ⟨'u' :: codeDigits c.toNat, by rw [escape, hletter], fun t ↦ ?_, fun t ↦ rfl⟩
    have hcode := ofCode?_codeDigits (toNat_lt_of_isPlain hplain)
    rw [Char.ofNat_toNat] at hcode
    change (ofCode? (codeDigits c.toNat)).map (·, t) = some (c, t)
    rw [hcode]
    rfl

/-- What is read behind a double quote: the text, and the rest. Any fuel that is enough will do. -/
def ReadsBasic (t cs rest : List Char) : Prop :=
  ∀ fuel, t.length < fuel → readBasic fuel t = some (cs, rest)

namespace ReadsBasic

theorem close (rest : List Char) : ReadsBasic ('"' :: rest) [] rest :=
  forall_fuel fun _ _ ↦ rfl

theorem plain (h : ReadsBasic t cs rest) (hplain : isPlain c = true) (hquote : c ≠ '"')
    (hslash : c ≠ '\\') : ReadsBasic (c :: t) (c :: cs) rest := by
  refine forall_fuel fun fuel hfuel ↦ ?_
  have hread := h fuel hfuel
  simp [readBasic, hplain, hread]

theorem escaped (h : ReadsBasic t cs rest) (hc : IsEscaped c) :
    ReadsBasic (escape c ++ t) (c :: cs) rest := by
  obtain ⟨e, he⟩ := exists_escapes hc
  rw [he.escape, List.cons_append]
  refine forall_fuel fun fuel hfuel ↦ ?_
  have hlength : t.length < fuel := by
    simp only [List.length_cons, List.length_append] at hfuel
    omega
  simp [readBasic, he.read, h fuel hlength]

theorem escapeText (s rest : List Char) :
    ReadsBasic (escapeText false 0 0 s ++ '"' :: rest) s rest := by
  induction s with
  | nil => exact close rest
  | cons c s ih =>
    unfold Toml.escapeText
    split
    · next hquote =>
      rw [if_neg (Nat.not_lt_zero 0), List.append_assoc]
      exact ih.escaped (.inl hquote)
    · next hquote =>
      rw [if_neg (by simp)]
      split
      · next hescaped =>
        rw [List.append_assoc]
        exact ih.escaped (.inr (by simpa using hescaped))
      · next hplain =>
        rw [not_or, not_or] at hplain
        exact ih.plain (by simpa using hplain.2.2) hquote hplain.1

end ReadsBasic

/-- A text in single quotes reads back if it has nothing but plain characters and no such quote. -/
theorem readLiteral_append (h : ∀ c ∈ s, isPlain c = true ∧ c ≠ '\'') (rest : List Char) :
    readLiteral (s ++ '\'' :: rest) = some (s, rest) := by
  induction s with
  | nil => rfl
  | cons c s ih =>
    obtain ⟨⟨hplain, hquote⟩, hmore⟩ := List.forall_mem_cons.1 h
    simp [readLiteral, hplain, ih hmore]

/-- What is read behind three quotes: the text, and the rest. Any fuel that is enough will do. -/
def ReadsLines (quote : Char) (escapes : Bool) (t cs rest : List Char) : Prop :=
  ∀ fuel, t.length < fuel → readLines quote escapes fuel t = some (cs, rest)

/-- A text that does not go on with a quote. -/
def Parts (quote : Char) (t : List Char) : Prop :=
  t.head? ≠ some quote

theorem parts_escape (h : IsEscaped c) (t : List Char) : Parts '"' (escape c ++ t) := by
  obtain ⟨e, he⟩ := exists_escapes h
  simp [Parts, he.escape]

theorem leadingQuotes_replicate (ht : Parts quote t) (run : Nat) :
    leadingQuotes quote (List.replicate run quote ++ t) = run := by
  unfold leadingQuotes
  rw [List.takeWhile_append_of_pos (by simp)]
  cases t with
  | nil => simp
  | cons c t =>
    have hc : c ≠ quote := by simpa [Parts] using ht
    simp [hc]

namespace ReadsLines

theorem plain (h : ReadsLines quote escapes t cs rest) (hplain : isPlain c = true)
    (hquote : c ≠ quote) (hslash : escapes = true → c ≠ '\\') :
    ReadsLines quote escapes (c :: t) (c :: cs) rest := by
  refine forall_fuel fun fuel hfuel ↦ ?_
  have hread := h fuel hfuel
  have hreturn : c ≠ '\r' := ne_of_passes hplain rfl
  have hfeed : c ≠ '\n' := ne_of_passes hplain rfl
  have hescape : (escapes && c == '\\') = false := by
    cases escapes <;> simp_all
  rw [readLines]
  · rw [if_neg hquote, hescape, if_neg Bool.false_ne_true, if_pos hplain, hread]
    rfl
  · exact fun _ heq _ ↦ hreturn heq
  · exact hfeed

theorem feed (h : ReadsLines quote escapes t cs rest) :
    ReadsLines quote escapes ('\n' :: t) ('\n' :: cs) rest := by
  refine forall_fuel fun fuel hfuel ↦ ?_
  rw [readLines, h fuel hfuel]
  rfl

theorem escaped (h : ReadsLines '"' true t cs rest) (hc : IsEscaped c) :
    ReadsLines '"' true (escape c ++ t) (c :: cs) rest := by
  obtain ⟨e, he⟩ := exists_escapes hc
  rw [he.escape, List.cons_append]
  refine forall_fuel fun fuel hfuel ↦ ?_
  have hlength : t.length < fuel := by
    simp only [List.length_cons, List.length_append] at hfuel
    omega
  simp [readLines, he.read, he.line, h fuel hlength]

/-- What quotes in front of another character come to. -/
theorem readLines_replicate (hquote : quote ≠ '\r' ∧ quote ≠ '\n') (ht : Parts quote t)
    (fuel run : Nat) :
    readLines quote escapes (fuel + 1) (List.replicate (run + 1) quote ++ t) =
      if (quotesOf (run + 1)).2.2 then
        some (List.replicate (quotesOf (run + 1)).1 quote,
          (List.replicate (run + 1) quote ++ t).drop (quotesOf (run + 1)).2.1)
      else
        (readLines quote escapes fuel
            ((List.replicate (run + 1) quote ++ t).drop (quotesOf (run + 1)).2.1)).map
          fun (cs, rest) ↦ (List.replicate (quotesOf (run + 1)).1 quote ++ cs, rest) := by
  have hleading := leadingQuotes_replicate ht (run + 1)
  rw [List.replicate_succ, List.cons_append] at hleading ⊢
  rw [readLines]
  · rw [if_pos rfl, hleading]
  · exact fun _ heq _ ↦ hquote.1 heq
  · exact hquote.2

theorem quotes (h : ReadsLines quote escapes t cs rest) (hquote : quote ≠ '\r' ∧ quote ≠ '\n')
    (ht : Parts quote t) (hrun : run ≤ 2) :
    ReadsLines quote escapes (List.replicate run quote ++ t) (List.replicate run quote ++ cs)
      rest := by
  cases run with
  | zero => exact h
  | succ run =>
    refine forall_fuel fun fuel hfuel ↦ ?_
    have hlength : t.length < fuel := by
      simp only [List.length_append, List.length_replicate] at hfuel
      omega
    have hof : quotesOf (run + 1) = (run + 1, run + 1, false) := by
      rw [quotesOf, if_neg (by omega)]
    rw [readLines_replicate hquote ht, hof]
    simp [h fuel hlength]

/-- Three quotes close a text, and up to two in front of them belong to it. -/
theorem close (hquote : quote ≠ '\r' ∧ quote ≠ '\n') (hrest : Parts quote rest) (hrun : run ≤ 2) :
    ReadsLines quote escapes (List.replicate run quote ++ (List.replicate 3 quote ++ rest))
      (List.replicate run quote) rest := by
  rw [← List.append_assoc, List.replicate_append_replicate]
  refine forall_fuel fun fuel _ ↦ ?_
  have hof : quotesOf (run + 2 + 1) = (run, run + 3, true) := by
    rw [quotesOf, if_pos (by omega), Nat.min_eq_left (by omega)]
    rfl
  rw [readLines_replicate hquote hrest, hof]
  simp

/-- A text in three double quotes reads back. The quotes that stand in front of what is still to be
written are read together with it. -/
theorem escapeText (hrest : Parts '"' rest) (s : List Char) (hrun : run ≤ 2) :
    ReadsLines '"' true
      (List.replicate run '"' ++ (escapeText true 2 run s ++ (List.replicate 3 '"' ++ rest)))
      (List.replicate run '"' ++ s) rest := by
  induction s generalizing run with
  | nil =>
    rw [List.append_nil]
    exact close (by decide) hrest hrun
  | cons c s ih =>
    have hnext := ih (Nat.zero_le 2)
    rw [List.replicate_zero, List.nil_append, List.nil_append] at hnext
    unfold Toml.escapeText
    split
    · next hquote =>
      subst hquote
      split
      · next hfree =>
        have hmore := ih (Nat.succ_le_of_lt hfree)
        simpa [List.replicate_succ'] using hmore
      · rw [List.append_assoc]
        exact (hnext.escaped (.inl rfl)).quotes (by decide) (parts_escape (.inl rfl) _) hrun
    · next hquote =>
      split
      · next hfeed =>
        obtain ⟨rfl, -⟩ := hfeed
        exact hnext.feed.quotes (by decide) (by simp [Parts]) hrun
      · next hfeed =>
        split
        · next hescaped =>
          have hc : IsEscaped c := .inr (by simpa using hescaped)
          rw [List.append_assoc]
          exact (hnext.escaped hc).quotes (by decide) (parts_escape hc _) hrun
        · next hplain =>
          rw [not_or, not_or] at hplain
          have hread := hnext.plain (by simpa using hplain.2.2) hquote fun _ ↦ hplain.1
          exact hread.quotes (by decide) (by simpa [Parts] using hquote) hrun

/-- A text in three single quotes reads back if it has nothing but plain characters and line feeds,
and never more than two such quotes in a row. -/
theorem literal (hrest : Parts '\'' rest) (h : ∀ c ∈ s, isPlain c = true ∨ c = '\n')
    (hlongest : longestRun '\'' run s ≤ 2) :
    ReadsLines '\'' false
      (List.replicate run '\'' ++ (s ++ (List.replicate 3 '\'' ++ rest)))
      (List.replicate run '\'' ++ s) rest := by
  induction s generalizing run with
  | nil =>
    rw [List.append_nil]
    exact close (by decide) hrest hlongest
  | cons c s ih =>
    obtain ⟨hc, hmore⟩ := List.forall_mem_cons.1 h
    unfold longestRun at hlongest
    split at hlongest
    · next hquote =>
      subst hquote
      have hread := ih hmore hlongest
      simpa [List.replicate_succ'] using hread
    · next hquote =>
      have hnext := ih hmore (Nat.le_trans (Nat.le_max_right _ _) hlongest)
      rw [List.replicate_zero, List.nil_append, List.nil_append] at hnext
      have hrun : run ≤ 2 := Nat.le_trans (Nat.le_max_left _ _) hlongest
      have hread :
          ReadsLines '\'' false (c :: (s ++ (List.replicate 3 '\'' ++ rest))) (c :: s) rest := by
        rcases hc with hplain | rfl
        · exact hnext.plain hplain hquote nofun
        · exact hnext.feed
      exact hread.quotes (by decide) (by simpa [Parts] using hquote) hrun

end ReadsLines

/-! ## The four forms -/

/-- The first character of a text between double quotes: its own, or the backslash of an escape. -/
theorem head?_escapeText (lines : Bool) (free run : Nat) (c : Char) (s t : List Char) :
    (escapeText lines free run (c :: s) ++ t).head? = some '\\' ∨
      (escapeText lines free run (c :: s) ++ t).head? = some c ∧
        (c = '"' ∧ run < free ∨ c = '\n' ∧ lines = true ∨ ¬ IsEscaped c) := by
  have hescape (hc : IsEscaped c) (t : List Char) : (escape c ++ t).head? = some '\\' := by
    obtain ⟨e, he⟩ := exists_escapes hc
    rw [he.escape]
    rfl
  unfold escapeText
  split
  · next hquote =>
    split
    · next hfree => exact .inr ⟨rfl, .inl ⟨hquote, hfree⟩⟩
    · rw [List.append_assoc]
      exact .inl (hescape (.inl hquote) _)
  · next hquote =>
    split
    · next hfeed => exact .inr ⟨rfl, .inr (.inl hfeed)⟩
    · split
      · next hescaped =>
        rw [List.append_assoc]
        exact .inl (hescape (.inr (by simpa using hescaped)) _)
      · next hplain =>
        refine .inr ⟨rfl, .inr (.inr fun hc ↦ ?_)⟩
        exact hplain (by simpa using hc.resolve_left hquote)

theorem readText_basic (hrest : Parts '"' rest) (s : List Char) :
    readText (writeForm s .basic ++ rest) = some (String.ofList s, rest) := by
  have hread := ReadsBasic.escapeText s rest _ (Nat.lt_succ_self _)
  change readText ('"' :: ((escapeText false 0 0 s ++ ['"']) ++ rest)) = _
  rw [List.append_assoc, List.singleton_append, readText]
  · rw [hread]
    rfl
  · intro behind heq
    -- only an empty text has two quotes in front
    cases s with
    | nil => exact hrest (congrArg List.head? (List.cons.inj heq).2)
    | cons c s =>
      have hhead := head?_escapeText false 0 0 c s ('"' :: rest)
      rw [heq] at hhead
      rcases hhead with hslash | ⟨hown, hquote | hfeed | hplain⟩
      · cases hslash
      · exact Nat.not_lt_zero 0 hquote.2
      · cases hfeed.2
      · exact hplain (.inl (Option.some.inj hown).symm)

theorem readText_literal (hrest : Parts '\'' rest) (h : ∀ c ∈ s, isPlain c = true ∧ c ≠ '\'') :
    readText (writeForm s .literal ++ rest) = some (String.ofList s, rest) := by
  have hread := readLiteral_append h rest
  change readText ('\'' :: ((s ++ ['\'']) ++ rest)) = _
  rw [List.append_assoc, List.singleton_append, readText]
  · rw [hread]
    rfl
  · intro behind heq
    cases s with
    | nil => exact hrest (congrArg List.head? (List.cons.inj heq).2)
    | cons c s => exact (h c List.mem_cons_self).2 (List.cons.inj heq).1

/-- The line end behind opening quotes is skipped, and it is there if the text begins with one. -/
theorem skipFirstLineEnd_append (h : '\n' ∉ s → Parts '\n' t ∧ Parts '\r' t) :
    skipFirstLineEnd (openingLineEnd s ++ t) = t := by
  unfold openingLineEnd
  split
  · rfl
  · next hnone =>
    obtain ⟨hfeed, hreturn⟩ := h (by simpa using hnone)
    rw [List.nil_append, skipFirstLineEnd]
    · rintro behind rfl
      exact hfeed rfl
    · rintro behind rfl
      exact hreturn rfl

/-- A text in a form of several lines reads back if what stands behind the opening quotes does. -/
theorem readText_lines (hquote : quote = '"' ∧ escapes = true ∨ quote = '\'' ∧ escapes = false)
    (hread : ReadsLines quote escapes t s rest) (h : '\n' ∉ s → Parts '\n' t ∧ Parts '\r' t) :
    readText (List.replicate 3 quote ++ (openingLineEnd s ++ t)) =
      some (String.ofList s, rest) := by
  have hskip := skipFirstLineEnd_append h
  have hfuel : t.length < (openingLineEnd s ++ t).length + 1 := by
    rw [List.length_append]
    omega
  rcases hquote with ⟨rfl, rfl⟩ | ⟨rfl, rfl⟩
  all_goals
    simp only [List.replicate_succ, List.replicate_zero, List.cons_append, List.nil_append,
      readText]
    rw [hskip, hread _ hfuel]
    rfl

theorem parts_of_isPlain (h : isPlain c = true) (t : List Char) :
    Parts '\n' (c :: t) ∧ Parts '\r' (c :: t) := by
  have hne {d : Char} (hd : isPlain d = false) : Parts d (c :: t) :=
    fun heq ↦ ne_of_passes h hd (Option.some.inj heq)
  exact ⟨hne rfl, hne rfl⟩

theorem readText_basicLines (hrest : Parts '"' rest) (s : List Char) :
    readText (writeForm s .basicLines ++ rest) = some (String.ofList s, rest) := by
  have hread := ReadsLines.escapeText hrest s (Nat.zero_le 2)
  rw [List.replicate_zero, List.nil_append, List.nil_append] at hread
  have hwrite : writeForm s .basicLines ++ rest = List.replicate 3 '"' ++
      (openingLineEnd s ++ (escapeText true 2 0 s ++ (List.replicate 3 '"' ++ rest))) := by
    simp only [writeForm, List.append_assoc]
    rfl
  rw [hwrite]
  refine readText_lines (.inl ⟨rfl, rfl⟩) hread fun hfeed ↦ ?_
  cases s with
  | nil => exact ⟨nofun, nofun⟩
  | cons c s =>
    have hhead := head?_escapeText true 2 0 c s (List.replicate 3 '"' ++ rest)
    unfold Parts
    rcases hhead with hslash | ⟨hown, hcases⟩
    · rw [hslash]
      exact ⟨nofun, nofun⟩
    · rw [hown]
      rcases hcases with ⟨rfl, -⟩ | ⟨rfl, -⟩ | hplain
      · exact ⟨nofun, nofun⟩
      · exact absurd List.mem_cons_self hfeed
      · cases hc : isPlain c with
        | true => exact parts_of_isPlain hc s
        | false => exact absurd (.inr (.inr (.inr hc))) hplain

theorem readText_literalLines (hrest : Parts '\'' rest) (h : ∀ c ∈ s, isPlain c = true ∨ c = '\n')
    (hlongest : longestRun '\'' 0 s ≤ 2) :
    readText (writeForm s .literalLines ++ rest) = some (String.ofList s, rest) := by
  have hread := ReadsLines.literal hrest h hlongest
  rw [List.replicate_zero, List.nil_append, List.nil_append] at hread
  have hwrite : writeForm s .literalLines ++ rest = List.replicate 3 '\'' ++
      (openingLineEnd s ++ (s ++ (List.replicate 3 '\'' ++ rest))) := by
    simp only [writeForm, List.append_assoc]
    rfl
  rw [hwrite]
  refine readText_lines (.inr ⟨rfl, rfl⟩) hread fun hfeed ↦ ?_
  cases s with
  | nil => exact ⟨nofun, nofun⟩
  | cons c s =>
    rcases h c List.mem_cons_self with hplain | rfl
    · exact parts_of_isPlain hplain _
    · exact absurd List.mem_cons_self hfeed

theorem le_longestRun (c : Char) (run : Nat) (s : List Char) : run ≤ longestRun c run s := by
  induction s generalizing run with
  | nil => exact Nat.le_refl run
  | cons d s ih =>
    unfold longestRun
    split
    · exact Nat.le_trans (Nat.le_succ run) (ih (run + 1))
    · exact Nat.le_max_left _ _

theorem not_mem_of_longestRun (h : longestRun c 0 s = 0) : c ∉ s := by
  induction s with
  | nil => exact List.not_mem_nil
  | cons d s ih =>
    unfold longestRun at h
    split at h
    · have hle := le_longestRun c (0 + 1) s
      omega
    · next hne =>
      rw [Nat.zero_max] at h
      exact List.not_mem_cons_of_ne_of_not_mem (Ne.symm hne) (ih h)

theorem isPlain_of_escapes (h : (Traits.ofText s).escapes = false) :
    ∀ c ∈ s, isPlain c = true ∨ c = '\n' := by
  intro c hc
  have hneeds : ¬ needsEscape c := (List.any_eq_false.1 h) c hc
  unfold needsEscape at hneeds
  grind

/-- A text reads back in single quotes if it needs no escapes and has neither such quotes nor line
feeds. -/
theorem literal_of_traits (h : (!(Traits.ofText s).escapes && (Traits.ofText s).singleQuotes == 0 &&
    !(Traits.ofText s).newline) = true) : ∀ c ∈ s, isPlain c = true ∧ c ≠ '\'' := by
  simp only [Bool.and_eq_true, Bool.not_eq_true', beq_iff_eq] at h
  obtain ⟨⟨hescapes, hquotes⟩, hfeed⟩ := h
  have hnone : '\n' ∉ s := by simpa [Traits.ofText] using hfeed
  intro c hc
  refine ⟨(isPlain_of_escapes hescapes c hc).resolve_right fun heq ↦ hnone (heq ▸ hc), ?_⟩
  exact fun heq ↦ not_mem_of_longestRun hquotes (heq ▸ hc)

/-- A text that is written as a value reads back. -/
theorem readText_writeText (s : List Char) (hdouble : Parts '"' rest) (hsingle : Parts '\'' rest) :
    readText (writeText s ++ rest) = some (String.ofList s, rest) := by
  unfold writeText Traits.form
  split
  · exact readText_basic hdouble s
  · split
    · next hliteral => exact readText_literal hsingle (literal_of_traits hliteral)
    · split
      · exact readText_basicLines hdouble s
      · split
        · next hliteral =>
          simp only [Bool.and_eq_true, Bool.not_eq_true', decide_eq_true_iff] at hliteral
          obtain ⟨hescapes, hquotes⟩ := hliteral
          exact readText_literalLines hsingle (isPlain_of_escapes hescapes) hquotes
        · split
          · exact readText_basicLines hdouble s
          · exact readText_basic hdouble s

theorem bare_iff : (!s.isEmpty && s.all isBare) = true ↔ s ≠ [] ∧ ∀ c ∈ s, isBare c = true := by
  rw [Bool.and_eq_true, Bool.not_eq_true', List.isEmpty_eq_false_iff, List.all_eq_true]

theorem readPart_bare (hne : s ≠ []) (hbare : ∀ c ∈ s, isBare c = true)
    (hrest : ∀ c ∈ rest.head?, isBare c = false) :
    readPart (s ++ rest) = some (String.ofList s, rest) := by
  have htake : (s ++ rest).takeWhile isBare = s := by
    rw [List.takeWhile_append_of_pos hbare]
    cases rest with
    | nil => simp
    | cons c rest => simp [hrest c rfl]
  have hdrop : (s ++ rest).dropWhile isBare = rest := by
    rw [List.dropWhile_append_of_pos hbare]
    cases rest with
    | nil => rfl
    | cons c rest => simp [hrest c rfl]
  obtain ⟨d, more, rfl⟩ := List.exists_cons_of_ne_nil hne
  have hd := hbare d List.mem_cons_self
  rw [readPart]
  · rw [List.span_eq_takeWhile_dropWhile, htake, hdrop]
    rfl
  · exact fun _ heq ↦ ne_of_passes hd rfl (List.cons.inj heq).1
  · exact fun _ heq ↦ ne_of_passes hd rfl (List.cons.inj heq).1

/-- A part of a key reads back in front of a character that no key has without quotes. -/
theorem readPart_writeKey (hrest : ∀ c ∈ rest.head?, isBare c = false) (s : List Char) :
    readPart (writeKey s ++ rest) = some (String.ofList s, rest) := by
  have hbasic : readPart (writeForm s .basic ++ rest) = some (String.ofList s, rest) := by
    have hread := ReadsBasic.escapeText s rest _ (Nat.lt_succ_self _)
    change readPart ('"' :: ((escapeText false 0 0 s ++ ['"']) ++ rest)) = _
    rw [List.append_assoc, List.singleton_append, readPart, hread]
    rfl
  unfold writeKey
  dsimp only
  split
  · next hbare =>
    obtain ⟨hne, hall⟩ := bare_iff.1 hbare
    exact readPart_bare hne hall hrest
  · split
    · exact hbasic
    · split
      · next hliteral =>
        have hread := readLiteral_append (literal_of_traits hliteral) rest
        change readPart ('\'' :: ((s ++ ['\'']) ++ rest)) = _
        rw [List.append_assoc, List.singleton_append, readPart, hread]
        rfl
      · exact hbasic

end SignalFlow.Toml
