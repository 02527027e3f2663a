import SignalFlow.Proofs.Numeric.Digits

/-!
# Numbers that read back

A natural number is written with its digits. A finite floating-point number that is written with
all its digits and no exponent is a row of digits with a point in it, or with zeros behind it if
it is whole. Both are read as the numbers that they are, with the sign of the number, so that
minus zero is kept apart.
-/

namespace SignalFlow.Numeric

variable {f : Format} {digits whole fraction text : List Char} {d : Decimal}

theorem readDigits?_toDigits (n : Nat) : readDigits? (Nat.toDigits 10 n) = some n := by
  have hempty : (Nat.toDigits 10 n).isEmpty = false := by
    rw [List.isEmpty_eq_false_iff]
    exact Nat.toDigits_ne_nil
  have hdigits : (Nat.toDigits 10 n).all Char.isDigit = true :=
    List.all_eq_true.2 isDigit_of_mem_toDigits
  rw [readDigits?, hempty, hdigits, digitsValue_toDigits]
  rfl

/-- A number that is not too great is read from its digits. -/
theorem readNatural?_toDigits {n greatest : Nat} (h : n ≤ greatest) :
    readNatural? greatest (Nat.toDigits 10 n) = some n := by
  have hplus : ∀ rest, Nat.toDigits 10 n ≠ '+' :: rest := by
    intro rest heq
    have hmem : '+' ∈ Nat.toDigits 10 n := heq ▸ List.mem_cons_self
    cases isDigit_of_mem_toDigits _ hmem
  unfold readNatural?
  split
  · next rest heq => exact absurd heq (hplus rest)
  · dsimp only
    rw [readDigits?_toDigits, Option.filter_some, if_pos (decide_eq_true h)]

theorem Decimal.read?_digits (hdigits : ∀ c ∈ digits, c.isDigit = true) (hne : digits ≠ []) :
    Decimal.read? digits = some ⟨digitsValue digits, 0⟩ := by
  have hsplit : splitDigits (digits ++ []) = (digits, []) := splitDigits_append hdigits nofun
  rw [List.append_nil] at hsplit
  unfold Decimal.read?
  rw [hsplit]
  simp [hne, readExponent?, ofParts]

/-- Digits around a point are read as the decimal that they stand for. -/
theorem Pointed.read? (h : Pointed text whole fraction d) : Decimal.read? text = some d := by
  have hwhole : splitDigits (whole ++ '.' :: fraction) = (whole, '.' :: fraction) :=
    splitDigits_append h.whole_digits (by simp)
  have hfraction : splitDigits (fraction ++ []) = (fraction, []) :=
    splitDigits_append h.fraction_digits nofun
  rw [List.append_nil] at hfraction
  unfold Decimal.read?
  rw [h.text, hwhole]
  simp [hfraction, h.fraction_ne, readExponent?, Decimal.ofParts, h.value]

/-- A text that is read as a decimal, and that begins with a digit and has nothing in it but
digits and a point. -/
structure Numeral (text : List Char) (d : Decimal) : Prop where
  reads : Decimal.read? text = some d
  head_digit : ∃ c rest, text = c :: rest ∧ c.isDigit = true
  chars : ∀ c ∈ text, c.isDigit = true ∨ c = '.'

theorem numeral_digits (hdigits : ∀ c ∈ digits, c.isDigit = true) (hne : digits ≠ []) :
    Numeral digits ⟨digitsValue digits, 0⟩ where
  reads := Decimal.read?_digits hdigits hne
  head_digit := by
    obtain ⟨c, rest, rfl⟩ := List.exists_cons_of_ne_nil hne
    exact ⟨c, rest, rfl, hdigits c List.mem_cons_self⟩
  chars c hc := .inl (hdigits c hc)

theorem Pointed.numeral (h : Pointed text whole fraction d) : Numeral text d where
  reads := h.read?
  head_digit := by
    obtain ⟨c, rest, rfl⟩ := List.exists_cons_of_ne_nil h.isWhole.ne_nil
    exact ⟨c, rest ++ '.' :: fraction, h.text, h.whole_digits c List.mem_cons_self⟩
  chars c hc := by
    rw [h.text, List.mem_append, List.mem_cons] at hc
    rcases hc with hc | rfl | hc
    · exact .inl (h.whole_digits c hc)
    · exact .inr rfl
    · exact .inl (h.fraction_digits c hc)

/-- A decimal is a numeral in the layout without exponents. -/
theorem exists_numeral_positional (hd : d.digits ≠ 0) :
    ∃ zeros, Numeral (Layout.plain.positional d.text d.exponent) (d.pad zeros) := by
  by_cases hwhole : 0 ≤ d.exponent
  · have htext : Layout.plain.positional d.text d.exponent =
        d.text ++ List.replicate d.exponent.toNat '0' := by
      rw [Layout.positional, if_pos hwhole]
      exact List.append_nil _
    have hvalue : (⟨digitsValue (d.text ++ List.replicate d.exponent.toNat '0'), 0⟩ : Decimal) =
        d.pad d.exponent.toNat := by
      rw [digitsValue_text_append, Decimal.pad, Int.toNat_of_nonneg hwhole, Int.sub_self]
    refine ⟨d.exponent.toNat, ?_⟩
    rw [htext, ← hvalue]
    exact numeral_digits
      (List.forall_mem_append.2 ⟨isDigit_of_mem_text d, isDigit_of_mem_replicate⟩)
      (List.append_ne_nil_of_left_ne_nil Nat.toDigits_ne_nil _)
  · obtain ⟨whole, fraction, h⟩ := exists_pointed_of_neg d .plain hd (Int.not_le.1 hwhole)
    exact ⟨0, h.pad_zero.numeral⟩

theorem exists_numeral_magnitude (hshift : f.unitShift ≤ 2 ^ f.exponentBits) {rank : Nat}
    (hrank : rank < f.infinityRank) :
    ∃ d, Numeral (Layout.plain.magnitude f rank) d ∧ d.rank f = rank := by
  by_cases hzero : rank = 0
  · refine ⟨⟨0, 0⟩, ?_, ?_⟩
    · rw [Layout.magnitude, if_pos hzero]
      exact numeral_digits (List.forall_mem_singleton.2 rfl) (List.cons_ne_nil _ _)
    · rw [hzero, Decimal.rank, if_pos (.inl rfl)]
  · obtain ⟨d, hdigits, htext, hpad⟩ :=
      exists_magnitude_eq_positional .plain (fun _ ↦ rfl) hshift hzero hrank
    obtain ⟨zeros, hnumeral⟩ := exists_numeral_positional hdigits
    exact ⟨d.pad zeros, htext ▸ hnumeral, hpad zeros⟩

theorem toLower_of_isDigit {c : Char} (h : c.isDigit = true) : c.toLower = c := by
  refine dif_neg fun hupper ↦ ?_
  simp only [Char.isDigit, Bool.and_eq_true, decide_eq_true_eq] at h
  exact absurd (UInt32.le_trans hupper.1 h.2) (by decide)

/-- Behind a sign a text that begins with a digit is no word, and is read as a decimal. -/
theorem Binary.read?_minus (f : Format) (negative : Bool) {c : Char} (hc : c.isDigit = true)
    (rest : List Char) : Binary.read? f (minus negative ++ c :: rest) =
      (Decimal.read? (c :: rest)).map (Binary.ofDecimal f negative) := by
  have hsign : splitSign (minus negative ++ c :: rest) = (negative, c :: rest) := by
    have hsign := splitSign_minus negative (List.forall_mem_singleton.2 hc) (List.cons_ne_nil c [])
      rest
    rwa [List.append_assoc] at hsign
  have hword (word : String) (hfirst : word.toList.head?.any Char.isDigit = false) :
      String.ofList ((c :: rest).map Char.toLower) ≠ word := by
    rintro rfl
    rw [String.toList_ofList, List.map_cons, toLower_of_isDigit hc] at hfirst
    exact Bool.false_ne_true (hfirst.symm.trans hc)
  unfold Binary.read?
  rw [hsign]
  dsimp only
  rw [if_neg (hword _ rfl), if_neg (not_or.2 ⟨hword _ rfl, hword _ rfl⟩)]

/-- A finite number reads back from the layout without exponents. -/
theorem Binary.read?_write (hshift : f.unitShift ≤ 2 ^ f.exponentBits) {x : Binary f}
    (h : x.isFinite = true) : Binary.read? f (Layout.plain.write x) = some x := by
  cases x with
  | nan => cases h
  | number negative rank hbounded =>
    obtain ⟨d, hnumeral, hrank⟩ := exists_numeral_magnitude hshift (of_decide_eq_true h)
    obtain ⟨c, rest, htext, hc⟩ := hnumeral.head_digit
    calc
      Binary.read? f (Layout.plain.write (.number negative rank hbounded)) =
          (Decimal.read? (c :: rest)).map (Binary.ofDecimal f negative) := by
        rw [write_number, htext, Binary.read?_minus f negative hc]
      _ = some (Binary.ofDecimal f negative d) := by
        rw [← htext, hnumeral.reads, Option.map_some]
      _ = some (.number negative rank hbounded) := by rw [ofDecimal_eq_number hbounded hrank]

/-- A finite number is written with digits, a point and a minus sign. -/
theorem Binary.chars_write (hshift : f.unitShift ≤ 2 ^ f.exponentBits) {x : Binary f}
    (h : x.isFinite = true) :
    ∀ c ∈ Layout.plain.write x, c.isDigit = true ∨ c = '.' ∨ c = '-' := by
  cases x with
  | nan => cases h
  | number negative rank hbounded =>
    obtain ⟨d, hnumeral, -⟩ := exists_numeral_magnitude hshift (of_decide_eq_true h)
    intro c hc
    rw [write_number, List.mem_append] at hc
    rcases hc with hc | hc
    · cases negative with
      | true => exact .inr (.inr (List.mem_singleton.1 hc))
      | false => cases hc
    · exact (hnumeral.chars c hc).imp id .inl

end SignalFlow.Numeric
