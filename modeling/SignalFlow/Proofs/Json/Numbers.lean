import SignalFlow.Json.Number
import SignalFlow.Proofs.Numeric.Digits
import SignalFlow.Proofs.Numeric.Ordering

/-!
# Numbers that are written in JSON

A finite double is written with a fraction or an exponent, so that it is never read as a whole
number. The significand that is read from it stands for no more than what was written. A whole
number is a row of digits.
-/

namespace SignalFlow.Json

open SignalFlow.Numeric

variable {digits whole fraction tail text rest : List Char} {negative : Bool}

/-- A text that cannot go on with the number in front of it. -/
def Ends (rest : List Char) : Prop :=
  ∀ c ∈ rest.head?, c.isDigit = false ∧ c ≠ '.' ∧ c ≠ 'e' ∧ c ≠ 'E'

theorem Ends.not_digit (h : Ends rest) : ∀ c ∈ rest.head?, c.isDigit = false :=
  fun c hc ↦ (h c hc).1

/-- An exponent with its mark and its sign, and the power of ten that it asks for. -/
inductive IsExponent : List Char → Int → Prop
  | intro {digits : List Char} (below : Bool) (hdigits : ∀ d ∈ digits, d.isDigit = true)
      (hne : digits ≠ []) : IsExponent ('e' :: (if below then '-' else '+') :: digits)
        (if below then -(digitsValue digits : Int) else digitsValue digits)

/-- An exponent, or nothing. -/
inductive IsTail : List Char → Int → Prop
  | nothing : IsTail [] 0
  | exponent {tail : List Char} {scale : Int} (h : IsExponent tail scale) : IsTail tail scale

/-- Digits with a fraction, an exponent, or both, and the decimal that they stand for. The digits
in front of the point are few enough to be kept. -/
inductive IsReal : List Char → Decimal → Prop
  | fraction {whole fraction tail : List Char} {scale : Int}
      (hwhole : ∀ d ∈ whole, d.isDigit = true) (hleading : IsWhole whole)
      (hkept : digitsValue whole ≤ greatestNatural)
      (hfraction : ∀ d ∈ fraction, d.isDigit = true) (hne : fraction ≠ [])
      (htail : IsTail tail scale) : IsReal (whole ++ '.' :: (fraction ++ tail))
        ⟨digitsValue (whole ++ fraction), -fraction.length + scale⟩
  | exponent {whole tail : List Char} {scale : Int} (hwhole : ∀ d ∈ whole, d.isDigit = true)
      (hleading : IsWhole whole) (htail : IsExponent tail scale) :
      IsReal (whole ++ tail) ⟨digitsValue whole, scale⟩

/-- Neither an exponent nor what ends a number goes on with its digits. -/
theorem Ends.not_digit_append {scale : Int} (hrest : Ends rest) (htail : IsTail tail scale) :
    ∀ c ∈ (tail ++ rest).head?, c.isDigit = false := by
  rcases htail with _ | ⟨below, -, -⟩
  · exact hrest.not_digit
  · simp

/-- The digits in front of the point are at most the decimal. -/
theorem digitsValue_whole_le {d : Decimal} (h : Pointed text whole fraction d) :
    (digitsValue whole : ℚ) ≤ d.value := by
  calc
    (digitsValue whole : ℚ) ≤ digitsValue (whole ++ fraction) / 10 ^ fraction.length := by
      rw [le_div_iff₀ (by positivity), digitsValue_append, mul_comm]
      exact_mod_cast Nat.le_add_right _ _
    _ = (⟨digitsValue (whole ++ fraction), -fraction.length⟩ : Decimal).value := by
      rw [Decimal.value, zpow_neg, zpow_natCast, ← div_eq_mul_inv]
    _ = d.value := by rw [h.value]

theorem isReal_of_pointed {d : Decimal} (h : Pointed text whole fraction d)
    (hkept : digitsValue whole ≤ greatestNatural) : IsReal text d := by
  have hreal := IsReal.fraction h.whole_digits h.isWhole hkept h.fraction_digits h.fraction_ne
    .nothing
  rwa [List.append_nil, ← h.text, Int.add_zero, h.value] at hreal

theorem isExponent_toDigits (scale : Int) : IsExponent
    ('e' :: ((if scale < 0 then ['-'] else ['+']) ++ Nat.toDigits 10 scale.natAbs)) scale := by
  have hvalue := digitsValue_toDigits scale.natAbs
  have hexponent := IsExponent.intro (decide (scale < 0)) isDigit_of_mem_toDigits
    (Nat.toDigits_ne_nil (b := 10) (n := scale.natAbs))
  rw [hvalue] at hexponent
  by_cases hbelow : scale < 0
  · rw [decide_eq_true hbelow] at hexponent
    rw [if_pos hbelow]
    rwa [if_pos rfl, if_pos rfl, Int.ofNat_natAbs_of_nonpos hbelow.le, Int.neg_neg] at hexponent
  · rw [decide_eq_false hbelow] at hexponent
    rw [if_neg hbelow]
    rwa [if_neg Bool.false_ne_true, if_neg Bool.false_ne_true,
      Int.natAbs_of_nonneg (Int.not_lt.1 hbelow)] at hexponent

theorem isReal_scientific {layout : Layout} (hplus : layout.plusSign = true) {d : Decimal}
    (hd : d.digits ≠ 0) : IsReal (layout.scientific d.text d.leadingExponent) d := by
  have hdigits : ∀ c ∈ d.text, c.isDigit = true := isDigit_of_mem_text d
  have hvalue := digitsValue_text d
  have hexponent := isExponent_toDigits d.leadingExponent
  obtain ⟨first, more, htext, hfirst⟩ := exists_toDigits (Nat.pos_of_ne_zero hd)
  have hleading : d.leadingExponent = more.length + d.exponent := by
    rw [Decimal.leadingExponent, Decimal.text, htext, List.length_cons]
    omega
  rw [Decimal.text, htext] at hdigits hvalue
  rw [Decimal.text, htext]
  unfold Layout.scientific
  rw [hplus]
  obtain ⟨hdigit, hmore⟩ := List.forall_mem_cons.1 hdigits
  have hwhole : ∀ c ∈ [first], c.isDigit = true := List.forall_mem_singleton.2 hdigit
  have hisWhole : IsWhole [first] := .inr ⟨first, [], rfl, hfirst⟩
  cases more with
  | nil =>
    have hreal := IsReal.exponent hwhole hisWhole hexponent
    have hsame : (⟨digitsValue [first], d.leadingExponent⟩ : Decimal) = d := by
      rw [hvalue, hleading]
      simp
    rwa [hsame] at hreal
  | cons second rest =>
    have hkept : digitsValue [first] ≤ greatestNatural :=
      (Nat.lt_of_lt_of_le (digitsValue_lt hwhole) (by simp [greatestNatural, UInt64.size])).le
    have hreal := IsReal.fraction hwhole hisWhole hkept hmore (List.cons_ne_nil _ _)
      (.exponent hexponent)
    have hsame : (⟨digitsValue ([first] ++ second :: rest),
        -(second :: rest).length + d.leadingExponent⟩ : Decimal) = d := by
      rw [List.singleton_append, hvalue, hleading, Int.neg_add_cancel_left]
    rwa [hsame] at hreal

/-- A decimal is less than the power of ten above its leading digit. -/
theorem value_lt (d : Decimal) : d.value < 10 ^ (d.leadingExponent + 1) := by
  have hdigits : d.digits < 10 ^ d.text.length := by
    have hvalue := digitsValue_lt (isDigit_of_mem_text d)
    rwa [digitsValue_text] at hvalue
  have hpower : (10 : ℚ) ^ (d.leadingExponent + 1) = 10 ^ d.text.length * 10 ^ d.exponent := by
    rw [← zpow_natCast, ← zpow_add₀ (by norm_num), Decimal.leadingExponent]
    congr 1
    omega
  rw [hpower, Decimal.value]
  exact mul_lt_mul_of_pos_right (by exact_mod_cast hdigits) (by positivity)

/-- A finite magnitude above zero is written with a fraction or an exponent, and stands for its
decimal. -/
theorem exists_isReal_magnitude {rank : Nat} (hpos : 0 < rank)
    (hrank : rank < binary64.infinityRank) : ∃ zeros, IsReal (numberLayout.magnitude binary64 rank)
      ((binary64.shortest numberLayout.tie rank).pad zeros) := by
  have hdigits := binary64.digits_shortest_ne_zero (by decide) numberLayout.tie hpos hrank.le
  rw [Layout.magnitude, if_neg hpos.ne', if_neg hrank.ne]
  generalize binary64.shortest numberLayout.tie rank = d at hdigits
  dsimp only
  split
  · next hfull =>
    obtain ⟨whole, fraction, zeros, hpointed⟩ := exists_pointed d numberLayout rfl hdigits
    refine ⟨zeros, isReal_of_pointed hpointed ?_⟩
    have hleading : d.leadingExponent + 1 ≤ 16 := by
      simp [numberLayout] at hfull
      omega
    have hsmall : (digitsValue whole : ℚ) < 10 ^ (16 : Int) := by
      calc (digitsValue whole : ℚ) ≤ (d.pad zeros).value := digitsValue_whole_le hpointed
        _ = d.value := d.value_pad zeros
        _ < 10 ^ (d.leadingExponent + 1) := value_lt d
        _ ≤ 10 ^ (16 : Int) := zpow_le_zpow_right₀ (by norm_num) hleading
    have hnat : digitsValue whole < 10 ^ 16 := by exact_mod_cast hsmall
    exact hnat.le.trans (by decide)
  · have hpad : d.pad 0 = d := by simp [Decimal.pad]
    exact ⟨0, hpad.symm ▸ isReal_scientific rfl hdigits⟩

theorem IsReal.exists_digit {d : Decimal} (h : IsReal text d) :
    ∃ d s, text = d :: s ∧ d.isDigit = true := by
  cases h with
  | fraction hwhole hleading | exponent hwhole hleading =>
    obtain ⟨d, more, rfl⟩ := List.exists_cons_of_ne_nil hleading.ne_nil
    exact ⟨d, _, rfl, hwhole d List.mem_cons_self⟩

namespace Significand

variable {s : Significand} {d : Decimal}

/-- A significand that is made of the first digits of a decimal: it fits 64 bits, stands for no more
than the decimal, and is the whole decimal if that fits. -/
structure Cuts (s : Significand) (d : Decimal) : Prop where
  fits : s.value ≤ greatestNatural
  le : (⟨s.value, s.exponent⟩ : Decimal).value ≤ d.value
  whole : d.digits ≤ greatestNatural → s = ⟨d.digits, d.exponent⟩

theorem cuts_self (hs : s.value ≤ greatestNatural) : s.Cuts ⟨s.value, s.exponent⟩ :=
  ⟨hs, le_rfl, fun _ ↦ rfl⟩

theorem cuts_of_lt {value digits : Nat} (exponent : Int) (cut : Nat)
    (hfits : value ≤ greatestNatural) (hgreat : greatestNatural < digits)
    (hle : value * 10 ^ cut ≤ digits) :
    (⟨value, exponent + cut⟩ : Significand).Cuts ⟨digits, exponent⟩ where
  fits := hfits
  le := Decimal.value_cut exponent cut hle
  whole h := absurd h (Nat.not_le.2 hgreat)

theorem Cuts.shift (h : s.Cuts d) (scale : Int) :
    (⟨s.value, s.exponent + scale⟩ : Significand).Cuts ⟨d.digits, d.exponent + scale⟩ where
  fits := h.fits
  le := Decimal.value_shift scale h.le
  whole hdigits := by rw [h.whole hdigits]

/-- One more digit goes from the text into the significand. -/
theorem push_digit (value : Nat) (c : Char) (rest : List Char) :
    (10 * value + (c.toNat - '0'.toNat)) * 10 ^ rest.length + digitsValue rest =
      value * 10 ^ (c :: rest).length + digitsValue (c :: rest) := by
  rw [digitsValue_cons, List.length_cons]
  ring

/-- A digit that does not fit makes all digits together too many. -/
theorem lt_of_push {value : Nat} {c : Char} (rest : List Char)
    (h : greatestNatural < 10 * value + (c.toNat - '0'.toNat)) :
    greatestNatural < value * 10 ^ (c :: rest).length + digitsValue (c :: rest) := by
  rw [← push_digit]
  exact h.trans_le
    ((Nat.le_mul_of_pos_right _ (Nat.pow_pos (by decide))).trans (Nat.le_add_right _ _))

theorem takeWhole_cuts (hs : s.value ≤ greatestNatural) (digits : List Char) :
    (s.takeWhole digits).Cuts
      ⟨s.value * 10 ^ digits.length + digitsValue digits, s.exponent⟩ := by
  induction digits generalizing s with
  | nil => simpa [digitsValue, takeWhole] using cuts_self hs
  | cons c rest ih =>
    unfold takeWhole
    dsimp only
    split
    · next hgreat => exact cuts_of_lt _ _ hs (lt_of_push rest hgreat) (Nat.le_add_right _ _)
    · next hfits =>
      rw [← push_digit]
      exact ih (Nat.not_lt.1 hfits)

theorem takeFraction_cuts (hs : s.value ≤ greatestNatural) (digits : List Char) :
    (s.takeFraction digits).Cuts
      ⟨s.value * 10 ^ digits.length + digitsValue digits, s.exponent - digits.length⟩ := by
  induction digits generalizing s with
  | nil => simpa [digitsValue, takeFraction] using cuts_self hs
  | cons c rest ih =>
    unfold takeFraction
    dsimp only
    split
    · next hgreat =>
      have hcut := cuts_of_lt (s.exponent - (c :: rest).length) (c :: rest).length hs
        (lt_of_push rest hgreat) (Nat.le_add_right _ _)
      rwa [Int.sub_add_cancel] at hcut
    · next hfits =>
      have hexponent : s.exponent - (c :: rest).length = s.exponent - 1 - rest.length := by
        rw [List.length_cons]
        omega
      rw [← push_digit, hexponent]
      exact ih (Nat.not_lt.1 hfits)

theorem cuts_whole (whole : List Char) :
    (takeWhole ⟨0, 0⟩ whole).Cuts ⟨digitsValue whole, 0⟩ := by
  have hcuts := takeWhole_cuts (s := ⟨0, 0⟩) (Nat.zero_le _) whole
  rwa [Nat.zero_mul, Nat.zero_add] at hcuts

theorem cuts_fraction {whole : List Char} (hkept : digitsValue whole ≤ greatestNatural)
    (fraction : List Char) : ((takeWhole ⟨0, 0⟩ whole).takeFraction fraction).Cuts
      ⟨digitsValue (whole ++ fraction), -fraction.length⟩ := by
  have hwhole : takeWhole ⟨0, 0⟩ whole = ⟨digitsValue whole, 0⟩ := (cuts_whole whole).whole hkept
  have hcuts := takeFraction_cuts (s := ⟨digitsValue whole, 0⟩) hkept fraction
  dsimp only at hcuts
  rw [Nat.mul_comm, ← digitsValue_append, Int.zero_sub] at hcuts
  rwa [hwhole]

end Significand

/-! ## Reading -/

theorem finishReal_of_ends (s : Significand) (h : Ends rest) :
    finishReal negative s rest = (s.toDouble negative).map fun x ↦ (.real x, rest) := by
  have hfinish : finishReal negative s rest =
      (Significand.toDouble ⟨s.value, s.exponent + 0⟩ negative >>= fun x ↦
        .ok (.real x, rest)) := by
    cases rest with
    | nil => rfl
    | cons c behind =>
      have hc : ¬ (c = 'e' ∨ c = 'E') := not_or.2 (h c rfl).2.2
      unfold finishReal
      dsimp only
      rw [if_neg hc]
      rfl
  rw [hfinish, Int.add_zero]
  cases s.toDouble negative <;> rfl

theorem finishReal_exponent (s : Significand) {scale : Int}
    (hread : readExponentPart tail = .ok (scale, rest)) : finishReal negative s ('e' :: tail) =
      (Significand.toDouble ⟨s.value, s.exponent + scale⟩ negative).map
        fun x ↦ (.real x, rest) := by
  have hfinish : finishReal negative s ('e' :: tail) = readExponentPart tail >>= fun part ↦
      Significand.toDouble ⟨s.value, s.exponent + part.1⟩ negative >>= fun x ↦
        .ok (.real x, part.2) := rfl
  rw [hfinish, hread]
  cases hx : Significand.toDouble ⟨s.value, s.exponent + scale⟩ negative <;>
    simp [bind, Except.bind, Except.map, hx]

theorem readExponentPart_append (below : Bool) (hdigits : ∀ d ∈ digits, d.isDigit = true)
    (hne : digits ≠ []) (hrest : Ends rest) :
    readExponentPart ((if below then '-' else '+') :: (digits ++ rest)) =
      .ok (if below then -(digitsValue digits : Int) else digitsValue digits, rest) := by
  have hsign : splitSign ((if below then '-' else '+') :: (digits ++ rest)) =
      (below, digits ++ rest) := by
    cases below <;> rfl
  unfold readExponentPart
  rw [hsign]
  dsimp only
  rw [splitDigits_append hdigits hrest.not_digit]
  obtain ⟨d, more, rfl⟩ := List.exists_cons_of_ne_nil hne
  rfl

/-- The exponent behind a number is added to that of its significand. -/
theorem finishReal_append (s : Significand) {scale : Int} (htail : IsTail tail scale)
    (hrest : Ends rest) : finishReal negative s (tail ++ rest) =
      (Significand.toDouble ⟨s.value, s.exponent + scale⟩ negative).map
        fun x ↦ (.real x, rest) := by
  rcases htail with _ | ⟨below, hdigits, hne⟩
  · rw [Int.add_zero]
    exact finishReal_of_ends s hrest
  · exact finishReal_exponent s (readExponentPart_append below hdigits hne hrest)

theorem readUnsigned_fraction (negative : Bool) (hwhole : ∀ d ∈ whole, d.isDigit = true)
    (hleading : IsWhole whole) (hfraction : ∀ d ∈ fraction, d.isDigit = true) (hne : fraction ≠ [])
    (hrest : ∀ c ∈ rest.head?, c.isDigit = false) :
    readUnsigned negative (whole ++ '.' :: (fraction ++ rest)) =
      finishReal negative ((Significand.takeWhole ⟨0, 0⟩ whole).takeFraction fraction) rest := by
  have hpoint : splitDigits (whole ++ '.' :: (fraction ++ rest)) =
      (whole, '.' :: (fraction ++ rest)) := splitDigits_append hwhole (by simp)
  obtain ⟨d, more, rfl⟩ := List.exists_cons_of_ne_nil hne
  have hbehind : splitDigits (d :: (more ++ rest)) = (d :: more, rest) :=
    splitDigits_append hfraction hrest
  unfold readUnsigned
  rw [hpoint]
  rcases hleading with rfl | ⟨first, others, rfl, hfirst⟩
  · simp [hbehind]
  · simp [hbehind, hfirst]

theorem readUnsigned_exponent (negative : Bool) (hwhole : ∀ d ∈ whole, d.isDigit = true)
    (hleading : IsWhole whole) (behind : List Char) :
    readUnsigned negative (whole ++ 'e' :: behind) =
      finishReal negative (Significand.takeWhole ⟨0, 0⟩ whole) ('e' :: behind) := by
  have hmark : splitDigits (whole ++ 'e' :: behind) = (whole, 'e' :: behind) :=
    splitDigits_append hwhole (by simp)
  unfold readUnsigned
  rw [hmark]
  rcases hleading with rfl | ⟨first, others, rfl, hfirst⟩
  · simp
  · simp [hfirst]

/-- Digits that end without a sign, a fraction and an exponent are a whole number. -/
theorem readUnsigned_natural (hwhole : ∀ d ∈ whole, d.isDigit = true) (hleading : IsWhole whole)
    (hvalue : digitsValue whole ≤ greatestNatural) (hrest : Ends rest) :
    readUnsigned false (whole ++ rest) = .ok (.natural (digitsValue whole), rest) := by
  have hsplit := splitDigits_append hwhole hrest.not_digit
  unfold readUnsigned
  rw [hsplit]
  -- a leading zero stands alone, and behind the digits comes neither a point nor an exponent
  cases rest with
  | nil =>
    rcases hleading with rfl | ⟨first, others, rfl, hfirst⟩
    · simp [hvalue]
    · simp [hvalue, hfirst]
  | cons c more =>
    obtain ⟨-, hpoint, hlower, hupper⟩ := hrest c rfl
    rcases hleading with rfl | ⟨first, others, rfl, hfirst⟩
    · simp [hvalue, hpoint, hlower, hupper]
    · simp [hvalue, hfirst, hpoint, hlower, hupper]

/-- What has a fraction or an exponent is read as a double, or not at all. The significand does not
depend on what stands behind it, and stands for no more than the text. -/
theorem IsReal.exists_readUnsigned {d : Decimal} (h : IsReal text d) :
    ∃ s : Significand, s.Cuts d ∧ ∀ negative rest, Ends rest →
      readUnsigned negative (text ++ rest) = (s.toDouble negative).map fun x ↦ (.real x, rest) := by
  cases h with
  | @fraction whole fraction tail scale hwhole hleading hkept hfraction hne htail =>
    refine ⟨_, (Significand.cuts_fraction hkept fraction).shift scale, fun negative rest hrest ↦ ?_⟩
    calc
      _ = readUnsigned negative (whole ++ '.' :: (fraction ++ (tail ++ rest))) := by
        rw [List.append_assoc, List.cons_append, List.append_assoc]
      _ = finishReal negative _ (tail ++ rest) := readUnsigned_fraction negative hwhole hleading
        hfraction hne (hrest.not_digit_append htail)
      _ = _ := finishReal_append _ htail hrest
  | @exponent whole tail scale hwhole hleading htail =>
    have hcuts := (Significand.cuts_whole whole).shift scale
    rw [Int.zero_add] at hcuts
    refine ⟨_, hcuts, fun negative rest hrest ↦ ?_⟩
    rw [List.append_assoc, ← finishReal_append _ (.exponent htail) hrest]
    cases htail
    exact readUnsigned_exponent negative hwhole hleading _

end SignalFlow.Json
