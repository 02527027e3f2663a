import SignalFlow.Numeric.Layout
import SignalFlow.Numeric.Numeral
import SignalFlow.Proofs.Numeric.Rounding
import SignalFlow.Proofs.Text

/-!
# Digits that are written

A number is written as a sign and a row of digits, with a point in it or zeros around it if it is a
decimal. The digits say what the number is.
-/

namespace SignalFlow.Numeric

variable {digits whole fraction : List Char}

theorem digitsValue_append (first second : List Char) :
    digitsValue (first ++ second) =
      10 ^ second.length * digitsValue first + digitsValue second := by
  unfold digitsValue
  rw [Nat.ofDigitChars_append, Nat.ofDigitChars_eq_ofDigitChars_zero]

theorem digitsValue_cons (c : Char) (rest : List Char) :
    digitsValue (c :: rest) = (c.toNat - '0'.toNat) * 10 ^ rest.length + digitsValue rest := by
  unfold digitsValue
  rw [Nat.ofDigitChars_cons, Nat.ofDigitChars_eq_ofDigitChars_zero, Nat.mul_zero, Nat.zero_add,
    Nat.mul_comm]

theorem digitsValue_lt (h : ∀ d ∈ digits, d.isDigit = true) :
    digitsValue digits < 10 ^ digits.length := by
  induction digits with
  | nil => exact Nat.one_pos
  | cons c rest ih =>
    obtain ⟨hc, hrest⟩ := List.forall_mem_cons.1 h
    have hdigit : c.toNat - '0'.toNat + 1 ≤ 10 :=
      Nat.succ_le_succ (Nat.sub_le_sub_right (Char.isDigit_iff_toNat.1 hc).2 _)
    calc
      digitsValue (c :: rest) = (c.toNat - '0'.toNat) * 10 ^ rest.length + digitsValue rest :=
        digitsValue_cons c rest
      _ < (c.toNat - '0'.toNat) * 10 ^ rest.length + 10 ^ rest.length :=
        Nat.add_lt_add_left (ih hrest) _
      _ = (c.toNat - '0'.toNat + 1) * 10 ^ rest.length := (Nat.succ_mul ..).symm
      _ ≤ 10 * 10 ^ rest.length := Nat.mul_le_mul_right _ hdigit
      _ = 10 ^ (c :: rest).length := by rw [List.length_cons, Nat.pow_succ, Nat.mul_comm]

theorem digitsValue_toDigits (n : Nat) : digitsValue (Nat.toDigits 10 n) = n :=
  Nat.ofDigitChars_toDigits (by decide) (by decide)

theorem digitsValue_replicate (n : Nat) : digitsValue (List.replicate n '0') = 0 :=
  Nat.ofDigitChars_replicate_zero

theorem isDigit_of_mem_toDigits {n : Nat} : ∀ d ∈ Nat.toDigits 10 n, d.isDigit = true :=
  fun _ hd ↦ Nat.isDigit_of_mem_toDigits (by decide) (by decide) hd

/-- A number that is not zero does not begin with a zero. -/
theorem exists_toDigits {n : Nat} (hn : 0 < n) :
    ∃ d more, Nat.toDigits 10 n = d :: more ∧ d ≠ '0' := by
  induction n using Nat.strongRecOn with
  | ind n ih =>
    by_cases hsmall : n < 10
    · refine ⟨Nat.digitChar n, [], Nat.toDigits_of_lt_base hsmall, ?_⟩
      rw [Ne, Nat.digitChar_eq_zero]
      omega
    · obtain ⟨d, more, hdigits, hd⟩ := ih (n / 10) (by omega) (by omega)
      refine ⟨d, more ++ [Nat.digitChar (n % 10)], ?_, hd⟩
      rw [Nat.toDigits_of_base_le (by decide) (Nat.not_lt.1 hsmall), hdigits, List.cons_append]

/-- The digits of a text are read up to a character that is none. -/
theorem splitDigits_append {rest : List Char} (hdigits : ∀ d ∈ digits, d.isDigit = true)
    (hrest : ∀ c ∈ rest.head?, c.isDigit = false) :
    splitDigits (digits ++ rest) = (digits, rest) := by
  rw [splitDigits, List.takeWhile_append_of_pos hdigits, List.dropWhile_append_of_pos hdigits]
  cases rest with
  | nil => rw [List.takeWhile_nil, List.dropWhile_nil, List.append_nil]
  | cons c more =>
    have hc : ¬ c.isDigit = true := Bool.not_eq_true _ ▸ hrest c rfl
    rw [List.takeWhile_cons_of_neg hc, List.dropWhile_cons_of_neg hc, List.append_nil]

/-- Whether digits are those of a whole number: no digits are in front of a zero that they begin
with. -/
def IsWhole (digits : List Char) : Prop :=
  digits = ['0'] ∨ ∃ d more, digits = d :: more ∧ d ≠ '0'

theorem IsWhole.ne_nil (h : IsWhole digits) : digits ≠ [] := by
  rcases h with rfl | ⟨d, more, rfl, -⟩ <;> exact List.cons_ne_nil _ _

theorem isWhole_toDigits (n : Nat) : IsWhole (Nat.toDigits 10 n) := by
  rcases Nat.eq_zero_or_pos n with rfl | hn
  · exact .inl (Nat.toDigits_zero 10)
  · exact .inr (exists_toDigits hn)

def minus (negative : Bool) : List Char :=
  if negative then ['-'] else []

theorem write_number (layout : Layout) {f : Format} (negative : Bool) (rank : Nat)
    (hbounded : rank ≤ f.infinityRank) : layout.write (.number negative rank hbounded) =
      minus negative ++ layout.magnitude f rank := by
  cases negative <;> rfl

theorem splitSign_minus (negative : Bool) (hdigits : ∀ d ∈ digits, d.isDigit = true)
    (hne : digits ≠ []) (rest : List Char) :
    splitSign (minus negative ++ digits ++ rest) = (negative, digits ++ rest) := by
  obtain ⟨d, more, rfl⟩ := List.exists_cons_of_ne_nil hne
  have hd := hdigits d List.mem_cons_self
  have hminus : d ≠ '-' := ne_of_passes hd (by decide)
  have hplus : d ≠ '+' := ne_of_passes hd (by decide)
  cases negative <;> simp [minus, splitSign, hminus, hplus]

/-- Digits around a point, and the decimal that they stand for. -/
structure Pointed (text whole fraction : List Char) (d : Decimal) : Prop where
  text : text = whole ++ '.' :: fraction
  whole_digits : ∀ c ∈ whole, c.isDigit = true
  isWhole : IsWhole whole
  fraction_digits : ∀ c ∈ fraction, c.isDigit = true
  fraction_ne : fraction ≠ []
  value : ⟨digitsValue (whole ++ fraction), -fraction.length⟩ = d

theorem Pointed.pad_zero {text : List Char} {d : Decimal} (h : Pointed text whole fraction d) :
    Pointed text whole fraction (d.pad 0) := by
  have hpad : d.pad 0 = d := by simp [Decimal.pad]
  rwa [hpad]

theorem isDigit_of_mem_replicate {n : Nat} : ∀ c ∈ List.replicate n '0', c.isDigit = true := by
  intro c hc
  rw [List.eq_of_mem_replicate hc]
  rfl

section Decimals

variable (d : Decimal)

theorem digitsValue_text : digitsValue d.text = d.digits :=
  digitsValue_toDigits d.digits

/-- Each zero behind the digits of a decimal multiplies them by ten. -/
theorem digitsValue_text_append (zeros : Nat) :
    digitsValue (d.text ++ List.replicate zeros '0') = d.digits * 10 ^ zeros := by
  calc
    digitsValue (d.text ++ List.replicate zeros '0') =
        10 ^ zeros * digitsValue d.text + digitsValue (List.replicate zeros '0') := by
      rw [digitsValue_append, List.length_replicate]
    _ = 10 ^ zeros * d.digits := by
      rw [digitsValue_text, digitsValue_replicate, Nat.add_zero]
    _ = d.digits * 10 ^ zeros := Nat.mul_comm ..

theorem isDigit_of_mem_text : ∀ c ∈ d.text, c.isDigit = true :=
  isDigit_of_mem_toDigits

/-- A whole decimal is written with the zeros of its exponent, and with one behind the point. -/
theorem pointed_whole (hd : d.digits ≠ 0) (h : 0 ≤ d.exponent) :
    Pointed (d.text ++ List.replicate d.exponent.toNat '0' ++ ['.', '0'])
      (d.text ++ List.replicate d.exponent.toNat '0') ['0'] (d.pad (d.exponent.toNat + 1)) where
  text := rfl
  whole_digits := List.forall_mem_append.2 ⟨isDigit_of_mem_text d, isDigit_of_mem_replicate⟩
  isWhole := by
    obtain ⟨first, more, hfirst, hne⟩ := exists_toDigits (Nat.pos_of_ne_zero hd)
    rw [Decimal.text, hfirst, List.cons_append]
    exact .inr ⟨first, _, rfl, hne⟩
  fraction_digits := by simp
  fraction_ne := List.cons_ne_nil _ _
  value := by
    have hvalue : digitsValue (d.text ++ List.replicate d.exponent.toNat '0' ++ ['0']) =
        d.digits * 10 ^ (d.exponent.toNat + 1) := by
      rw [List.append_assoc, ← List.replicate_succ', digitsValue_text_append]
    have hexponent : -(['0'].length : Int) = d.exponent - (d.exponent.toNat + 1 : Nat) := by
      simp only [List.length_singleton]
      omega
    rw [hvalue, hexponent, Decimal.pad]

/-- A decimal below one is written with zeros between the point and its digits. -/
theorem pointed_below_one (h : d.text.length + d.exponent ≤ 0) :
    Pointed ('0' :: '.' :: (List.replicate (-d.exponent - d.text.length).toNat '0' ++ d.text)) ['0']
      (List.replicate (-d.exponent - d.text.length).toNat '0' ++ d.text) d where
  text := rfl
  whole_digits := by simp
  isWhole := .inl rfl
  fraction_digits := List.forall_mem_append.2 ⟨isDigit_of_mem_replicate, isDigit_of_mem_text d⟩
  fraction_ne := List.append_ne_nil_of_right_ne_nil _ Nat.toDigits_ne_nil
  value := by
    have hvalue : digitsValue (['0'] ++
        (List.replicate (-d.exponent - d.text.length).toNat '0' ++ d.text)) = d.digits := by
      let zeros := (-d.exponent - d.text.length).toNat
      calc
        digitsValue (['0'] ++ (List.replicate zeros '0' ++ d.text)) =
            digitsValue (List.replicate (zeros + 1) '0' ++ d.text) := by
          rw [← List.append_assoc, List.singleton_append, List.replicate_succ]
        _ = 10 ^ d.text.length * 0 + d.digits := by
          rw [digitsValue_append, digitsValue_replicate, digitsValue_text]
        _ = d.digits := by rw [Nat.mul_zero, Nat.zero_add]
    have hexponent :
        -((List.replicate (-d.exponent - d.text.length).toNat '0' ++ d.text).length : Int) =
          d.exponent := by
      rw [List.length_append, List.length_replicate]
      omega
    rw [hvalue, hexponent]

/-- Any other decimal is written with the point between its digits. -/
theorem pointed_between (hd : d.digits ≠ 0) {places : Nat} (hpos : places ≠ 0)
    (hplaces : (places : Int) = d.text.length + d.exponent) (hfraction : d.exponent < 0) :
    Pointed (d.text.take places ++ '.' :: d.text.drop places) (d.text.take places)
      (d.text.drop places) d where
  text := rfl
  whole_digits c hc := isDigit_of_mem_text d c (List.mem_of_mem_take hc)
  isWhole := by
    obtain ⟨first, more, hfirst, hne⟩ := exists_toDigits (Nat.pos_of_ne_zero hd)
    obtain ⟨places, rfl⟩ := Nat.exists_eq_succ_of_ne_zero hpos
    rw [Decimal.text, hfirst, List.take_succ_cons]
    exact .inr ⟨first, _, rfl, hne⟩
  fraction_digits c hc := isDigit_of_mem_text d c (List.mem_of_mem_drop hc)
  fraction_ne := by
    rw [Ne, List.drop_eq_nil_iff]
    omega
  value := by
    have hexponent : -((d.text.drop places).length : Int) = d.exponent := by
      rw [List.length_drop]
      omega
    rw [List.take_append_drop, digitsValue_text, hexponent]

/-- A decimal that is not written with zeros behind its digits is written with the point among
them. -/
theorem exists_pointed_of_neg (layout : Layout) (hd : d.digits ≠ 0) (hfraction : d.exponent < 0) :
    ∃ whole fraction, Pointed (layout.positional d.text d.exponent) whole fraction d := by
  unfold Layout.positional
  dsimp only
  rw [if_neg (Int.not_le.2 hfraction)]
  split
  · next hzero => exact ⟨_, _, pointed_below_one d (by omega)⟩
  · next hpos => exact ⟨_, _, pointed_between d hd hpos (by omega) hfraction⟩

/-- A decimal is written with its digits, and with zeros behind them if it is whole. -/
theorem exists_pointed (layout : Layout) (hkeeps : layout.keepsFraction = true)
    (hd : d.digits ≠ 0) : ∃ whole fraction zeros,
      Pointed (layout.positional d.text d.exponent) whole fraction (d.pad zeros) := by
  by_cases hwhole : 0 ≤ d.exponent
  · unfold Layout.positional
    dsimp only
    rw [hkeeps, if_pos hwhole]
    exact ⟨_, _, _, pointed_whole d hd hwhole⟩
  · obtain ⟨whole, fraction, h⟩ := exists_pointed_of_neg d layout hd (Int.not_le.1 hwhole)
    exact ⟨whole, fraction, 0, h.pad_zero⟩

end Decimals

section Magnitudes

variable {f : Format} {rank : Nat}

theorem ofDecimal_eq_number {d : Decimal} (hbounded : rank ≤ f.infinityRank)
    (hrank : d.rank f = rank) (negative : Bool) :
    Binary.ofDecimal f negative d = .number negative rank hbounded := by
  simp only [Binary.ofDecimal, Binary.ofRank, hrank, Nat.min_eq_left hbounded]

/-- In a layout without exponents a finite magnitude above zero is written as a decimal that has its
rank, however many zeros are put behind it. -/
theorem exists_magnitude_eq_positional (layout : Layout) (hfull : ∀ e, layout.inFull e = true)
    (hshift : f.unitShift ≤ 2 ^ f.exponentBits) (hpos : rank ≠ 0) (hrank : rank < f.infinityRank) :
    ∃ d : Decimal, d.digits ≠ 0 ∧ layout.magnitude f rank = layout.positional d.text d.exponent ∧
      ∀ zeros, (d.pad zeros).rank f = rank := by
  have hpos' := Nat.pos_of_ne_zero hpos
  refine ⟨f.shortest layout.tie rank,
    f.digits_shortest_ne_zero hshift layout.tie hpos' hrank.le, ?_,
    fun zeros ↦
      (Decimal.rank_pad _ _ zeros).trans (f.rank_shortest hshift layout.tie hpos' hrank.le)⟩
  rw [Layout.magnitude, if_neg hpos, if_neg hrank.ne]
  exact if_pos (hfull _)

end Magnitudes

end SignalFlow.Numeric
