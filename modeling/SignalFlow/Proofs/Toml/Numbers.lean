import SignalFlow.Proofs.Numeric.Digits
import SignalFlow.Proofs.Text
import SignalFlow.Toml.Document
import SignalFlow.Toml.Writer

/-!
# Numbers in documents

A number that is written at the end of a line reads back as itself. Integers are rows of digits.
Floating-point numbers are digits with a point between them, and what the digits say has the rank of
the number.
-/

namespace SignalFlow.Toml

open SignalFlow.Numeric

variable {digits whole fraction rest : List Char} {c : Char}

/-- A row of digits is read up to a character that is neither a digit nor an underscore. -/
theorem readGrouped_append (hdigits : ∀ d ∈ digits, d.isDigit = true) (hne : digits ≠ [])
    (hc : c.isDigit = false) (hunderscore : c ≠ '_') (rest : List Char) :
    readGrouped Char.isDigit (digits ++ c :: rest) = some (digits, c :: rest) := by
  induction digits with
  | nil => exact absurd rfl hne
  | cons d more ih =>
    obtain ⟨hd, hmore⟩ := List.forall_mem_cons.1 hdigits
    cases more with
    | nil => simp [readGrouped, hd, hc]
    | cons d' more =>
      have hd' := hmore d' List.mem_cons_self
      have hne' : d' ≠ '_' := ne_of_passes hd' (by decide)
      have hread := ih hmore (List.cons_ne_nil _ _)
      simp only [List.cons_append] at hread ⊢
      simp [readGrouped, hd, hd', hread]

theorem readWhole_append (hdigits : ∀ d ∈ digits, d.isDigit = true) (hwhole : IsWhole digits)
    (hc : c.isDigit = false) (hunderscore : c ≠ '_') (rest : List Char) :
    readWhole (digits ++ c :: rest) = some (digits, c :: rest) := by
  rcases hwhole with rfl | ⟨d, more, rfl, hd⟩
  · rfl
  · rw [readWhole]
    · exact readGrouped_append hdigits (List.cons_ne_nil _ _) hc hunderscore rest
    · intro rest' heq
      exact hd (List.cons.inj heq).1

/-- Digits up to a point or the end of a line are neither the beginning of a date nor of a time. -/
theorem not_begins_append (hdigits : ∀ d ∈ digits, d.isDigit = true) (hc : c.isDigit = false)
    (hdash : c ≠ '-') (hcolon : c ≠ ':') :
    (beginsDate (digits ++ c :: rest) || beginsTime (digits ++ c :: rest)) = false := by
  have hother (d : Char) (hd : d ∈ digits) : d ≠ '-' ∧ d ≠ ':' :=
    ⟨ne_of_passes (hdigits d hd) (by decide), ne_of_passes (hdigits d hd) (by decide)⟩
  rw [Bool.or_eq_false_iff]
  -- the mark is among the first five characters, or it comes behind them
  constructor
  · unfold beginsDate
    split
    · next heq =>
      rcases digits with _ | ⟨d₁, _ | ⟨d₂, _ | ⟨d₃, _ | ⟨d₄, _ | ⟨d₅, more⟩⟩⟩⟩⟩ <;> grind
    · rfl
  · unfold beginsTime
    split
    · next heq => rcases digits with _ | ⟨d₁, _ | ⟨d₂, _ | ⟨d₃, more⟩⟩⟩ <;> grind
    · rfl

/-- The whole part of a number is read first, behind the sign. -/
theorem readNumber_append (negative : Bool) (hdigits : ∀ d ∈ digits, d.isDigit = true)
    (hwhole : IsWhole digits) (hc : c.isDigit = false) (hunderscore : c ≠ '_')
    (hbase : c ≠ 'x' ∧ c ≠ 'o' ∧ c ≠ 'b') (rest : List Char) :
    readNumber (minus negative ++ digits ++ c :: rest) =
      readDecimal negative digits (c :: rest) := by
  have hne := hwhole.ne_nil
  have hsign := splitSign_minus negative hdigits hne (c :: rest)
  have hread := readWhole_append hdigits hwhole hc hunderscore rest
  obtain ⟨d, more, rfl⟩ := List.exists_cons_of_ne_nil hne
  have hd := hdigits d List.mem_cons_self
  have hsecond (a : Char) (rest' : List Char) (ha : a.isDigit = false) (hca : c ≠ a) :
      minus negative ++ d :: more ++ c :: rest ≠ '0' :: a :: rest' := by
    intro heq
    cases negative with
    | true => cases heq
    | false =>
      cases more with
      | nil => exact hca (List.cons.inj (List.cons.inj heq).2).1
      | cons d' more =>
        have hd' := hdigits d' (List.mem_cons_of_mem _ List.mem_cons_self)
        exact ne_of_passes hd' ha (List.cons.inj (List.cons.inj heq).2).1
  unfold readNumber
  split
  · next heq => exact absurd heq (hsecond 'x' _ (by decide) hbase.1)
  · next heq => exact absurd heq (hsecond 'o' _ (by decide) hbase.2.1)
  · next heq => exact absurd heq (hsecond 'b' _ (by decide) hbase.2.2)
  · rw [hsign]
    dsimp only [List.cons_append]
    split
    · next heq => exact absurd (List.cons.inj heq).1 (ne_of_passes hd (by decide))
    · next heq => exact absurd (List.cons.inj heq).1 (ne_of_passes hd (by decide))
    · rw [List.cons_append] at hread
      rw [hread]
      rfl

theorem toList_toString_int (n : Int) :
    (toString n).toList = minus (decide (n < 0)) ++ Nat.toDigits 10 n.natAbs := by
  cases n with
  | ofNat n =>
    change (toString n).toList = _
    rw [Nat.toString_eq_ofList_toDigits, String.toList_ofList]
    rfl
  | negSucc n =>
    change ("-" ++ toString (n + 1)).toList = _
    rw [Nat.toString_eq_ofList_toDigits, String.toList_append,
      decide_eq_true (Int.negSucc_lt_zero n)]
    exact congrArg (['-'] ++ ·) String.toList_ofList

theorem readNumber_integer {n : Int} (hmin : Int64.minValue.toInt ≤ n)
    (hmax : n ≤ Int64.maxValue.toInt) (rest : List Char) :
    readNumber ((toString n).toList ++ '\n' :: rest) = some (.integer n, '\n' :: rest) := by
  have hread := readNumber_append (c := '\n') (decide (n < 0)) isDigit_of_mem_toDigits
    (isWhole_toDigits n.natAbs) (by decide) (by decide) (by decide) rest
  have hvalue : (if decide (n < 0) = true then -(n.natAbs : Int) else n.natAbs) = n := by
    split <;> grind
  have hdecimal : readDecimal (decide (n < 0)) (Nat.toDigits 10 n.natAbs) ('\n' :: rest) =
      (integer? (if decide (n < 0) = true then -(n.natAbs : Int) else n.natAbs)).map
        (·, '\n' :: rest) := by
    simp [readDecimal, digitsValue_toDigits]
  calc
    readNumber ((toString n).toList ++ '\n' :: rest) =
        readDecimal (decide (n < 0)) (Nat.toDigits 10 n.natAbs) ('\n' :: rest) := by
      rw [toList_toString_int, hread]
    _ = (integer? n).map (·, '\n' :: rest) := by rw [hdecimal, hvalue]
    _ = some (.integer n, '\n' :: rest) := by
      rw [integer?, if_pos ⟨hmin, hmax⟩]
      rfl

/-- A finite magnitude is written as digits that have its rank. -/
theorem exists_pointed_magnitude {rank : Nat} (hrank : rank < binary64.infinityRank) :
    ∃ whole fraction d, Pointed (floatLayout.magnitude binary64 rank) whole fraction d ∧
      d.rank binary64 = rank := by
  by_cases hzero : rank = 0
  · subst hzero
    exact ⟨['0'], ['0'], ⟨0, -1⟩, ⟨rfl, by simp, .inl rfl, by simp, by simp, rfl⟩, rfl⟩
  · obtain ⟨d, hdigits, htext, hpad⟩ :=
      exists_magnitude_eq_positional floatLayout (fun _ ↦ rfl) (by decide) hzero hrank
    obtain ⟨whole, fraction, zeros, hpointed⟩ := exists_pointed d floatLayout rfl hdigits
    exact ⟨whole, fraction, d.pad zeros, htext ▸ hpointed, hpad zeros⟩

/-- Digits around a point read back as the number that is closest. -/
theorem readNumber_pointed {text : List Char} {d : Decimal} (h : Pointed text whole fraction d)
    (negative : Bool) (hd : d.rank binary64 < binary64.infinityRank) (rest : List Char) :
    readNumber (minus negative ++ text ++ '\n' :: rest) =
      some (.float (Binary.ofDecimal binary64 negative d), '\n' :: rest) := by
  rw [h.text, ← List.append_assoc, List.append_assoc, List.cons_append,
    readNumber_append negative h.whole_digits h.isWhole (by decide) (by decide) (by decide)]
  have hfraction := readGrouped_append (c := '\n') h.fraction_digits h.fraction_ne (by decide)
    (by decide) rest
  have hfloat : float? negative d = some (.float (Binary.ofDecimal binary64 negative d)) := by
    refine if_neg fun hinfinity ↦ ?_
    have hrank := (Binary.number.inj hinfinity).2
    rw [Nat.min_eq_left hd.le, Nat.min_self] at hrank
    exact hd.ne hrank
  simp [readDecimal, hfraction, h.value, hfloat]

theorem magnitude_of_infinite {rank : Nat} (h : rank = binary64.infinityRank) :
    floatLayout.magnitude binary64 rank = ['i', 'n', 'f'] := by
  rw [h]
  rfl

theorem readNumber_float (x : Double) (rest : List Char) :
    readNumber (floatLayout.write x ++ '\n' :: rest) = some (.float x, '\n' :: rest) := by
  cases x with
  | nan => rfl
  | number negative rank hbounded =>
    rw [write_number]
    rcases hbounded.lt_or_eq with hfinite | hinfinite
    · obtain ⟨whole, fraction, d, hpointed, hrank⟩ := exists_pointed_magnitude hfinite
      rw [readNumber_pointed hpointed negative (hrank.symm ▸ hfinite) rest,
        ofDecimal_eq_number hbounded hrank]
    · have hsame : Binary.infinity binary64 negative = .number negative rank hbounded := by
        simp only [Binary.infinity, Binary.ofRank, hinfinite, Nat.min_self]
      rw [magnitude_of_infinite hinfinite, ← hsame]
      cases negative <;> rfl

/-- A number that is not the beginning of a date or a time is read as a number. -/
theorem readValue_of_number {s : List Char} (depth : Nat)
    (hhead : c.isDigit = true ∨ c = '-' ∨ c = 'i' ∨ c = 'n')
    (hbegins : (beginsDate (c :: s) || beginsTime (c :: s)) = false) :
    readValue depth (c :: s) = readNumber (c :: s) := by
  have hne (d : Char) (hd : (d.isDigit || d == '-' || d == 'i' || d == 'n') = false) : c ≠ d := by
    rintro rfl
    rcases hhead with hdigit | rfl | rfl | rfl
    · rw [hdigit] at hd
      cases hd
    all_goals cases hd
  rw [readValue]
  · rw [hbegins, if_neg Bool.false_ne_true]
  all_goals exact fun _ heq ↦ hne _ rfl (List.cons.inj heq).1

theorem not_begins_cons {s : List Char} (hc : c.isDigit = false) :
    (beginsDate (c :: s) || beginsTime (c :: s)) = false := by
  unfold beginsDate beginsTime
  grind

/-- Digits behind a sign are read as a number if a point or a line end comes behind them. -/
theorem readValue_append (depth : Nat) (negative : Bool) (hdigits : ∀ d ∈ digits, d.isDigit = true)
    (hne : digits ≠ []) (hc : c.isDigit = false) (hdash : c ≠ '-') (hcolon : c ≠ ':') :
    readValue depth (minus negative ++ digits ++ c :: rest) =
      readNumber (minus negative ++ digits ++ c :: rest) := by
  cases negative with
  | true => exact readValue_of_number depth (.inr (.inl rfl)) (not_begins_cons rfl)
  | false =>
    obtain ⟨d, more, rfl⟩ := List.exists_cons_of_ne_nil hne
    exact readValue_of_number depth (.inl (hdigits d List.mem_cons_self))
      (not_begins_append hdigits hc hdash hcolon)

/-- An integer of 64 bits is read as itself at the end of a line. -/
theorem readValue_integer (depth : Nat) {n : Int} (hmin : Int64.minValue.toInt ≤ n)
    (hmax : n ≤ Int64.maxValue.toInt) (rest : List Char) :
    readValue depth ((toString n).toList ++ '\n' :: rest) = some (.integer n, '\n' :: rest) := by
  rw [← readNumber_integer hmin hmax rest, toList_toString_int]
  exact readValue_append depth _ isDigit_of_mem_toDigits Nat.toDigits_ne_nil (by decide) (by decide)
    (by decide)

/-- A floating-point number is read as itself at the end of a line. -/
theorem readValue_float (depth : Nat) (x : Double) (rest : List Char) :
    readValue depth (floatLayout.write x ++ '\n' :: rest) = some (.float x, '\n' :: rest) := by
  rw [← readNumber_float x rest]
  cases x with
  | nan => exact readValue_of_number depth (.inr (.inr (.inr rfl))) (not_begins_cons rfl)
  | number negative rank hbounded =>
    rw [write_number]
    rcases hbounded.lt_or_eq with hfinite | hinfinite
    · obtain ⟨whole, fraction, d, hpointed, -⟩ := exists_pointed_magnitude hfinite
      rw [hpointed.text, ← List.append_assoc, List.append_assoc, List.cons_append]
      exact readValue_append depth negative hpointed.whole_digits hpointed.isWhole.ne_nil
        (by decide)
        (by decide) (by decide)
    · rw [magnitude_of_infinite hinfinite]
      cases negative with
      | true => exact readValue_of_number depth (.inr (.inl rfl)) (not_begins_cons rfl)
      | false => exact readValue_of_number depth (.inr (.inr (.inl rfl))) (not_begins_cons rfl)

end SignalFlow.Toml
