import SignalFlow.Numeric.Binary

/-!
# Decimals that identify a floating-point number

A decimal is a whole number of powers of ten. `Binary.ofDecimal` rounds one to a format.
`shortest` goes the other way: of the decimals that round to a given number it takes one
with the fewest digits, and of those the closest. It tries the grids of one digit, two
digits and so on, and on each grid the two points around the number; whether a point reads
back is decided by rounding it.
-/

namespace SignalFlow.Numeric

/-- The value `digits * 10 ^ exponent`. -/
structure Decimal where
  digits : Nat
  exponent : Int
deriving DecidableEq, Repr

/-- Which of two decimals at the same distance is taken. -/
inductive Tie where
  | upper
  | even
deriving DecidableEq, Repr

namespace Decimal

def text (d : Decimal) : List Char :=
  Nat.toDigits 10 d.digits

/-- The power of ten of the leading digit. -/
def leadingExponent (d : Decimal) : Int :=
  d.exponent + d.text.length - 1

/-- The numerator and denominator of `d * scale`. -/
def ratio (d : Decimal) (scale : Nat) : Nat × Nat :=
  (d.digits * Nat.pow 10 d.exponent.toNat * scale, Nat.pow 10 (-d.exponent).toNat)

/-- The rank closest to a decimal. Exponents far outside the format are decided by their
size alone, so that no power of ten of such an exponent is computed. -/
def rank (f : Format) (d : Decimal) : Nat :=
  let limit : Int := (1 <<< f.exponentBits : Nat)
  if d.digits = 0 ∨ d.leadingExponent < -limit then 0
  else if limit < d.exponent then f.infinityRank
  else
    let (numerator, denominator) := d.ratio f.one
    f.nearestRank numerator denominator

/-- Moves the trailing zeros of the digits into the exponent, at most `fuel` of them. -/
def trim : Nat → Decimal → Decimal
  | 0, d => d
  | fuel + 1, d =>
    if d.digits ≠ 0 ∧ d.digits % 10 = 0 then trim fuel ⟨d.digits / 10, d.exponent + 1⟩ else d

end Decimal

/-- The number closest to a decimal with a sign. -/
def Binary.ofDecimal (f : Format) (negative : Bool) (d : Decimal) : Binary f :=
  Binary.ofRank f negative (d.rank f)

namespace Format

/-- The least power of ten above the magnitude of a positive rank. -/
def decimalPlace (f : Format) (rank : Nat) : Int :=
  let units := f.units rank
  if f.one ≤ units then (Nat.toDigits 10 (units / f.one)).length
  else 1 - ((Nat.toDigits 10 (f.one / units)).length : Int)

/-- The point of the grid of multiples of `10 ^ exponent` that rounds to a rank, if one of
the two points around its magnitude does. The closer of two is taken. -/
def gridPoint? (f : Format) (tie : Tie) (rank : Nat) (exponent : Int) : Option Decimal :=
  let numerator := f.units rank * Nat.pow 10 (-exponent).toNat
  let denominator := f.one * Nat.pow 10 exponent.toNat
  let lower := numerator / denominator
  let twice := 2 * (numerator % denominator)
  let upperFirst :=
    denominator < twice ∨ denominator = twice ∧ (tie = .upper ∨ lower % 2 = 1)
  let points := if upperFirst then [lower + 1, lower] else [lower, lower + 1]
  (points.map (⟨·, exponent⟩)).find? (fun d ↦ d.rank f == rank)

/-- The magnitude of a rank as a decimal without rounding. -/
def exactDecimal (f : Format) (rank : Nat) : Decimal :=
  ⟨f.units rank * Nat.pow 5 f.unitShift, -f.unitShift⟩

/-- The decimal of fewest digits that rounds to a positive finite rank. Seventeen digits
suffice for double precision; the exact decimal stands for a format that needs more. -/
def shortest (f : Format) (tie : Tie) (rank : Nat) : Decimal :=
  let place := f.decimalPlace rank
  let found := (List.range 17).findSome? fun (n : Nat) ↦ f.gridPoint? tie rank (place - n - 1)
  let decimal := found.getD (f.exactDecimal rank)
  decimal.trim decimal.text.length

end Format

end SignalFlow.Numeric
