import SignalFlow.Json.Token
import SignalFlow.Proofs.Json.Doubles
import SignalFlow.Proofs.Text

/-!
# Tokens that are written

A text between quotes reads back as itself. Every character in it is escaped or stands for
itself, and the reader is at the next one when it has taken it.

Punctuation, words, quoted texts and numbers are read as one token each. Whatever is written
token by token is read as the row of these tokens.
-/

namespace SignalFlow.Json

open SignalFlow.Numeric

theorem hexDigit?_digitChar {n : Nat} (hn : n < 16) : hexDigit? (Nat.digitChar n) = some n := by
  revert n
  decide

theorem hasCode_cons (a b c d : Char) (rest : List Char) :
    hasCode (a :: b :: c :: d :: rest) = true := by
  have ha := a.utf8Size_pos
  have hb := b.utf8Size_pos
  have hc := c.utf8Size_pos
  have hd := d.utf8Size_pos
  refine decide_eq_true ?_
  change 4 ≤ 0 + a.utf8Size + b.utf8Size + c.utf8Size + d.utf8Size
  omega

theorem finishCode_control {n : Nat} (hn : n < 0x20) :
    finishCode n none = .ok (.plain, some (Char.ofNat n)) := by
  have htrailing : ¬ isTrailingSurrogate n = true := by
    simp only [isTrailingSurrogate, Bool.and_eq_true, decide_eq_true_eq]
    omega
  have hleading : ¬ isLeadingSurrogate n = true := by
    simp only [isLeadingSurrogate, Bool.and_eq_true, decide_eq_true_eq]
    omega
  rw [finishCode, if_neg htrailing, if_neg hleading]

/-- The code of a control character is read as the character. -/
theorem readQuoted_code {c : Char} (hc : c.toNat < 0x20) (read rest : List Char) :
    readQuoted .escape read
      ('u' :: '0' :: '0' :: Nat.digitChar (c.toNat / 16) :: Nat.digitChar (c.toNat % 16) :: rest) =
        readQuoted .plain (c :: read) rest := by
  have hzero : hexDigit? '0' = some 0 := rfl
  have hhigh := hexDigit?_digitChar (n := c.toNat / 16) (by omega)
  have hlow := hexDigit?_digitChar (n := c.toNat % 16) (Nat.mod_lt _ (by decide))
  have hvalue : 16 * (c.toNat / 16) + c.toNat % 16 = c.toNat := Nat.div_add_mod _ _
  have hfinish := finishCode_control hc
  rw [Char.ofNat_toNat] at hfinish
  simp [readQuoted, hasCode_cons, hzero, hhigh, hlow, hvalue, hfinish]

theorem readQuoted_escape (c : Char) (read rest : List Char) :
    readQuoted .plain read (escape c ++ rest) = readQuoted .plain (c :: read) rest := by
  unfold escape
  cases hletter : escapeLetter? c with
  | some letter =>
    unfold escapeLetter? at hletter
    split at hletter
    all_goals cases hletter <;> rfl
  | none =>
    dsimp only
    split
    · next hcontrol => exact readQuoted_code hcontrol read rest
    · next hplain =>
      have hquote : c ≠ '"' := by rintro rfl; cases hletter
      have hslash : c ≠ '\\' := by rintro rfl; cases hletter
      rw [List.singleton_append, readQuoted, if_neg hquote, if_neg hslash, if_neg hplain]

/-- A text is read up to the quote behind it. -/
theorem readQuoted_append (s read rest : List Char) :
    readQuoted .plain read (s.flatMap escape ++ '"' :: rest) = .ok (read.reverse ++ s, rest) := by
  induction s generalizing read with
  | nil => rw [List.append_nil]; rfl
  | cons c s ih =>
    calc
      readQuoted .plain read ((c :: s).flatMap escape ++ '"' :: rest) =
          readQuoted .plain (c :: read) (s.flatMap escape ++ '"' :: rest) := by
        rw [List.flatMap_cons, List.append_assoc, readQuoted_escape]
      _ = .ok ((c :: read).reverse ++ s, rest) := ih _
      _ = .ok (read.reverse ++ c :: s, rest) := by
        rw [List.reverse_cons, List.append_assoc, List.singleton_append]

variable {s text rest : List Char} {token : Token} {ts : List Token} {c : Char}

/-- The tokens of a text. Any fuel that is enough will do. -/
def Scans (s : List Char) (ts : List Token) : Prop :=
  ∀ fuel, s.length ≤ fuel → tokensWithin fuel s = ts

/-- A text that is read as one token in front of whatever cannot go on with it. -/
def Reads (text : List Char) (token : Token) : Prop :=
  ∃ c s, text = c :: s ∧ isBlank c = false ∧
    ∀ rest, Ends rest → readToken c (s ++ rest) = .ok (token, rest)

theorem dropWhile_isBlank (hblank : isBlank c = false) (s : List Char) :
    (c :: s).dropWhile isBlank = c :: s :=
  List.dropWhile_cons_of_neg (Bool.not_eq_true _ ▸ hblank)

theorem tokensWithin_of_ok (hblank : isBlank c = false)
    (hread : readToken c s = .ok (token, rest)) (fuel : Nat) :
    tokensWithin (fuel + 1) (c :: s) = token :: tokensWithin fuel rest := by
  simp only [tokensWithin, dropWhile_isBlank hblank, hread]

namespace Scans

theorem tokens (h : Scans s ts) : tokens s = ts :=
  h s.length (Nat.le_refl _)

theorem nil : Scans [] [] := by
  intro fuel _
  cases fuel <;> rfl

theorem cons (hblank : isBlank c = false) (hread : readToken c s = .ok (token, rest))
    (hlength : rest.length ≤ s.length) (h : Scans rest ts) : Scans (c :: s) (token :: ts) := by
  refine forall_fuel fun fuel hfuel ↦ ?_
  rw [tokensWithin_of_ok hblank hread, h fuel (Nat.le_trans hlength hfuel)]

theorem mark (hmark : mark? c = some token) (h : Scans rest ts) :
    Scans (c :: rest) (token :: ts) := by
  have hblank : isBlank c = false := by grind [mark?, isBlank]
  refine cons hblank ?_ (Nat.le_refl _) h
  rw [readToken, hmark]

theorem append (htext : Reads text token) (hrest : Ends rest) (h : Scans rest ts) :
    Scans (text ++ rest) (token :: ts) := by
  obtain ⟨c, s, rfl, hblank, hread⟩ := htext
  have hlength : rest.length ≤ (s ++ rest).length := by simp
  exact cons hblank (hread rest hrest) hlength h

end Scans

theorem reads_true : Reads "true".toList (.truth true) :=
  ⟨'t', _, rfl, rfl, fun _ _ ↦ rfl⟩

theorem reads_false : Reads "false".toList (.truth false) :=
  ⟨'f', _, rfl, rfl, fun _ _ ↦ rfl⟩

theorem reads_null : Reads "null".toList .null :=
  ⟨'n', _, rfl, rfl, fun _ _ ↦ rfl⟩

theorem reads_quote (s : List Char) : Reads (quote s) (.text s) := by
  refine ⟨'"', _, rfl, rfl, fun rest _ ↦ ?_⟩
  have hread := readQuoted_append s [] rest
  rw [List.reverse_nil, List.nil_append] at hread
  have hmark : mark? '"' = none := rfl
  rw [List.append_assoc, List.singleton_append]
  unfold readToken
  rw [hmark]
  dsimp only
  rw [if_pos rfl, hread]

/-- The token of a number that was read, or the defect. -/
def numberToken (read : Except Problem (Number × List Char)) : Except Token (Token × List Char) :=
  match read with
  | .ok (n, rest) => .ok (.number n, rest)
  | .error problem => .error (.defect false problem)

theorem readToken_minus (s : List Char) : readToken '-' s = numberToken (readUnsigned true s) :=
  rfl

theorem readToken_digit (hc : c.isDigit = true) (s : List Char) :
    readToken c s = numberToken (readUnsigned false (c :: s)) := by
  have hmark : mark? c = none := by
    have hne (d : Char) (hd : d.isDigit = false) : c ≠ d := ne_of_passes hc hd
    simp [mark?, hne]
  unfold readToken
  dsimp only
  rw [hmark]
  dsimp only
  rw [if_neg (ne_of_passes hc rfl), if_neg (ne_of_passes hc rfl), if_neg (ne_of_passes hc rfl),
    if_neg (ne_of_passes hc rfl), if_neg (ne_of_passes hc rfl), if_pos hc]
  rfl

/-- A number is told from all else by its first character, which is its sign or a digit. -/
theorem exists_readToken (negative : Bool) (hdigit : ∃ d s, text = d :: s ∧ d.isDigit = true) :
    ∃ c s, minus negative ++ text = c :: s ∧ isBlank c = false ∧ ∀ rest,
      readToken c (s ++ rest) = numberToken (readUnsigned negative (text ++ rest)) := by
  obtain ⟨d, s, rfl, hd⟩ := hdigit
  cases negative with
  | true => exact ⟨'-', d :: s, rfl, rfl, fun rest ↦ readToken_minus _⟩
  | false =>
    have hblank : isBlank d = false := by
      have hne (c : Char) (hc : c.isDigit = false) : d ≠ c := ne_of_passes hd hc
      simp [isBlank, hne]
    exact ⟨d, s, rfl, hblank, fun rest ↦ readToken_digit hd _⟩

theorem reads_natural {n : Nat} (hn : n ≤ greatestNatural) :
    Reads (Nat.toDigits 10 n) (.number (.natural n)) := by
  have hdigits : ∀ d ∈ Nat.toDigits 10 n, d.isDigit = true := isDigit_of_mem_toDigits
  have hvalue := digitsValue_toDigits n
  have hdigit : ∃ d s, Nat.toDigits 10 n = d :: s ∧ d.isDigit = true := by
    obtain ⟨d, s, htext⟩ := List.exists_cons_of_ne_nil (isWhole_toDigits n).ne_nil
    exact ⟨d, s, htext, hdigits d (htext ▸ List.mem_cons_self)⟩
  obtain ⟨c, s, htext, hblank, hread⟩ := exists_readToken false hdigit
  refine ⟨c, s, htext, hblank, fun rest hrest ↦ ?_⟩
  rw [hread, readUnsigned_natural hdigits (isWhole_toDigits n) (hvalue.trans_le hn) hrest, hvalue]
  rfl

def Number.toDouble : Number → Double
  | .natural n => Binary.ofNat binary64 n
  | .real x => x

/-- A double whose text, when nothing else stands there, is read as a number that is this double. -/
def ReadsBack (x : Double) : Prop :=
  ∃ n, tokens (writeDouble x) = [.number n] ∧ n.toDouble = x

theorem writeDouble_number {negative : Bool} {rank : Nat} {hbounded : rank ≤ binary64.infinityRank}
    (hfinite : (Binary.number negative rank hbounded).isFinite = true) :
    rank < binary64.infinityRank ∧ writeDouble (.number negative rank hbounded) =
      minus negative ++ numberLayout.magnitude binary64 rank := by
  refine ⟨of_decide_eq_true hfinite, ?_⟩
  rw [writeDouble, if_pos hfinite]
  exact write_number numberLayout negative rank hbounded

/-- A finite double is read as a double and not as a whole number, whatever stands behind it. -/
theorem exists_reads_double {x : Double} (hfinite : x.isFinite = true) :
    ∃ y, Reads (writeDouble x) (.number (.real y)) := by
  cases x with
  | nan => cases hfinite
  | number negative rank hbounded =>
    obtain ⟨hrank, hwrite⟩ := writeDouble_number hfinite
    obtain ⟨d, hreal, hdouble⟩ := exists_isReal hrank
    obtain ⟨c, s, htext, hblank, hread⟩ := exists_readToken negative hreal.exists_digit
    obtain ⟨significand, hcuts, hsignificand⟩ := hreal.exists_readUnsigned
    obtain ⟨y, hy⟩ := hdouble significand hcuts negative
    refine ⟨y, c, s, hwrite.trans htext, hblank, fun rest hrest ↦ ?_⟩
    rw [hread, hsignificand negative rest hrest, hy]
    rfl

/-- A double that reads back is the double that is read. -/
theorem reads_double {x : Double} (hfinite : x.isFinite = true) (h : ReadsBack x) :
    Reads (writeDouble x) (.number (.real x)) := by
  obtain ⟨y, hreads⟩ := exists_reads_double hfinite
  obtain ⟨n, htokens, hn⟩ := h
  have halone : tokens (writeDouble x) = [.number (.real y)] := by
    have hscans := (Scans.nil.append hreads (by simp [Ends])).tokens
    rwa [List.append_nil] at hscans
  obtain rfl : Number.real y = n := Token.number.inj (List.cons.inj (halone.symm.trans htokens)).1
  obtain rfl : y = x := hn
  exact hreads

end SignalFlow.Json
