/-!
# Floating-point numbers

A format fixes how many bits the fraction and the exponent of a number take. The
non-negative values of a format are counted from zero upwards: the rank of a value is its
place in that order, so that comparing magnitudes is comparing ranks. Every finite
magnitude is a whole multiple of the least positive one, and `units` says which multiple.
`nearestRank` goes the other way: it rounds an exact ratio to the closest value, a tie
going to the even rank.

A number of a format is either a sign with a rank, or the one value that is not a number.
Both zeros and both infinities are numbers. Order is the order of signed ranks, in which
the two zeros are equal and not-a-number is below and above nothing. Each arithmetic
operation computes its exact result in whole numbers and rounds it once.
-/

namespace SignalFlow.Numeric

/-- The widths of the fraction and exponent fields of a binary interchange format. -/
structure Format where
  fractionBits : Nat
  exponentBits : Nat
deriving DecidableEq, Repr

/-- Double precision: 52 fraction bits and 11 exponent bits. -/
def binary64 : Format where
  fractionBits := 52
  exponentBits := 11

/-- Single precision: 23 fraction bits and 8 exponent bits. -/
def binary32 : Format where
  fractionBits := 23
  exponentBits := 8

namespace Format

/-- The number one is this power of two when counted in least positive values. -/
def unitShift (f : Format) : Nat :=
  1 <<< (f.exponentBits - 1) - 2 + f.fractionBits

/-- The number one, counted in least positive values. -/
def one (f : Format) : Nat :=
  1 <<< f.unitShift

/-- The rank of infinity, which follows the greatest finite value. -/
def infinityRank (f : Format) : Nat :=
  (1 <<< f.exponentBits - 1) <<< f.fractionBits

def greatestRank (f : Format) : Nat :=
  f.infinityRank - 1

/-- The number of bits of a sign, an exponent and a fraction together. -/
def width (f : Format) : Nat :=
  1 + f.exponentBits + f.fractionBits

/-- The magnitude of a finite rank, counted in least positive values. -/
def units (f : Format) (rank : Nat) : Nat :=
  let octave := rank >>> f.fractionBits - 1
  (rank - octave <<< f.fractionBits) <<< octave

/-- The quotient rounded to a whole number, a tie going to the even one. -/
def divideToEven (numerator denominator : Nat) : Nat :=
  let quotient := numerator / denominator
  let twice := 2 * (numerator % denominator)
  if twice < denominator then quotient
  else if denominator < twice then quotient + 1
  else quotient + quotient % 2

/-- The rank closest to `numerator / denominator` least positive values. A ratio beyond the
greatest finite value by half a step or more has the rank of infinity. -/
def nearestRank (f : Format) (numerator denominator : Nat) : Nat :=
  let octave := (numerator / denominator).log2 - f.fractionBits
  min (octave <<< f.fractionBits + divideToEven numerator (denominator <<< octave))
    f.infinityRank

theorem nearestRank_le (f : Format) (numerator denominator : Nat) :
    f.nearestRank numerator denominator ≤ f.infinityRank :=
  Nat.min_le_right _ _

end Format

/-- A floating-point number of the format `f`. -/
inductive Binary (f : Format) where
  | nan
  | number (negative : Bool) (rank : Nat) (bounded : rank ≤ f.infinityRank)
deriving DecidableEq, Repr

abbrev Double := Binary binary64

abbrev Single := Binary binary32

namespace Binary

variable {f : Format}

/-- The number with the given sign and rank, infinite where the rank is too great. -/
def ofRank (f : Format) (negative : Bool) (rank : Nat) : Binary f :=
  .number negative (min rank f.infinityRank) (Nat.min_le_right _ _)

/-- The number closest to `numerator / denominator` least positive values. -/
def ofUnits (f : Format) (negative : Bool) (numerator denominator : Nat) : Binary f :=
  .number negative (f.nearestRank numerator denominator) (f.nearestRank_le _ _)

/-- The number closest to a ratio of natural numbers. -/
def ofRatio (f : Format) (negative : Bool) (numerator denominator : Nat) : Binary f :=
  ofUnits f negative (numerator * f.one) denominator

/-- The number closest to a natural number. -/
def ofNat (f : Format) (n : Nat) : Binary f :=
  ofRatio f false n 1

def ofInt (f : Format) (n : Int) : Binary f :=
  ofRatio f (decide (n < 0)) n.natAbs 1

def zero (f : Format) (negative : Bool) : Binary f :=
  ofRank f negative 0

def infinity (f : Format) (negative : Bool) : Binary f :=
  ofRank f negative f.infinityRank

/-- The finite number of greatest magnitude with a sign. -/
def greatest (f : Format) (negative : Bool) : Binary f :=
  ofRank f negative f.greatestRank

instance : Inhabited (Binary f) := ⟨zero f false⟩

/-- The interchange pattern: the sign bit above the rank. Not-a-number has the pattern
with every exponent bit and the highest fraction bit set. -/
def toBits : Binary f → Nat
  | .nan => f.infinityRank + 1 <<< (f.fractionBits - 1)
  | .number negative rank _ => (if negative then 1 <<< (f.width - 1) else 0) + rank

/-- The number of an interchange pattern. Every pattern above infinity is not-a-number. -/
def ofBits (f : Format) (bits : Nat) : Binary f :=
  let rank := bits % 1 <<< (f.width - 1)
  if h : rank ≤ f.infinityRank then
    .number (bits >>> (f.width - 1) % 2 == 1) rank h
  else .nan

/-- Neither an infinity nor not-a-number. -/
def isFinite : Binary f → Bool
  | .nan => false
  | .number _ rank _ => rank < f.infinityRank

def isNaN : Binary f → Bool
  | .nan => true
  | .number .. => false

/-- The rank with its sign, which orders the numbers. -/
def place : Binary f → Option Int
  | .nan => none
  | .number negative rank _ => some (if negative then -rank else rank)

/-- Whether two numbers are equal in value: the zeros are, not-a-number is not. -/
def same (x y : Binary f) : Bool :=
  match x.place, y.place with
  | some a, some b => a == b
  | _, _ => false

/-- Whether the first number is less than the second. -/
def less (x y : Binary f) : Bool :=
  match x.place, y.place with
  | some a, some b => a < b
  | _, _ => false

instance : LT (Binary f) := ⟨fun x y ↦ x.less y = true⟩

instance : DecidableLT (Binary f) := fun x y ↦ inferInstanceAs (Decidable (x.less y = true))

/-- Whether the first number is less than the second or equal in value to it. -/
def atMost (x y : Binary f) : Bool :=
  x.less y || x.same y

instance : LE (Binary f) := ⟨fun x y ↦ x.atMost y = true⟩

instance : DecidableLE (Binary f) := fun x y ↦ inferInstanceAs (Decidable (x.atMost y = true))

def negate : Binary f → Binary f
  | .nan => .nan
  | .number negative rank h => .number (!negative) rank h

instance : Neg (Binary f) := ⟨negate⟩

/-- The exact magnitude in least positive values with its sign. -/
def signedUnits (f : Format) (negative : Bool) (rank : Nat) : Int :=
  if negative then -(f.units rank : Int) else f.units rank

def add : Binary f → Binary f → Binary f
  | .number s a _, .number t b _ =>
    if a = f.infinityRank then
      if b = f.infinityRank ∧ s ≠ t then .nan else infinity f s
    else if b = f.infinityRank then infinity f t
    else
      let sum := signedUnits f s a + signedUnits f t b
      if sum = 0 then zero f (s && t) else ofUnits f (decide (sum < 0)) sum.natAbs 1
  | _, _ => .nan

instance : Add (Binary f) := ⟨add⟩

def multiply : Binary f → Binary f → Binary f
  | .number s a _, .number t b _ =>
    if a = f.infinityRank ∨ b = f.infinityRank then
      if a = 0 ∨ b = 0 then .nan else infinity f (s != t)
    else ofUnits f (s != t) (f.units a * f.units b) (f.one)
  | _, _ => .nan

instance : Mul (Binary f) := ⟨multiply⟩

def divide : Binary f → Binary f → Binary f
  | .number s a _, .number t b _ =>
    if a = f.infinityRank then
      if b = f.infinityRank then .nan else infinity f (s != t)
    else if b = f.infinityRank then zero f (s != t)
    else if b = 0 then
      if a = 0 then .nan else infinity f (s != t)
    else ofUnits f (s != t) (f.units a * f.one) (f.units b)
  | _, _ => .nan

instance : Div (Binary f) := ⟨divide⟩

/-- The remainder of the division that truncates its quotient, with the sign of the
dividend. It is exact. -/
def remainder : Binary f → Binary f → Binary f
  | .number s a h, .number _ b _ =>
    if a = f.infinityRank ∨ b = 0 then .nan
    else if b = f.infinityRank then .number s a h
    else ofUnits f s (f.units a % f.units b) 1
  | _, _ => .nan

instance : Mod (Binary f) := ⟨remainder⟩

/-- The square root, exact before its one rounding: one more bit than the integer root
tells a root that is not whole from one that is. -/
def squareRoot : Binary f → Binary f
  | .nan => .nan
  | .number negative rank h =>
    if rank = 0 then .number negative rank h
    else if negative then .nan
    else if rank = f.infinityRank then .number negative rank h
    else
      let square := f.units rank * f.one
      let root := square.sqrt
      ofUnits f false (2 * root + if root * root = square then 0 else 1) 2

/-- The same number in another format, rounded if that format is narrower. -/
def convert (g : Format) : Binary f → Binary g
  | .nan => .nan
  | .number negative rank _ =>
    if rank = f.infinityRank then infinity g negative
    else ofUnits g negative (f.units rank * g.one) (f.one)

/-- The whole part of a magnitude, or `none` for an infinity and not-a-number. -/
def wholePart : Binary f → Option Nat
  | .nan => none
  | .number _ rank _ =>
    if rank = f.infinityRank then none else some (f.units rank / f.one)

/-- The whole part brought into the range of 32-bit naturals. A negative number and
not-a-number give zero. -/
def toUInt32 : Binary f → UInt32
  | .nan => 0
  | .number true _ _ => 0
  | .number false rank h =>
    match (Binary.number false rank h).wholePart with
    | none => UInt32.ofNat (UInt32.size - 1)
    | some n => UInt32.ofNat (min n (UInt32.size - 1))

end Binary

namespace Double

/-- The machine number of the same value. -/
def toFloat (x : Double) : Float :=
  Float.ofBits (UInt64.ofNat x.toBits)

def ofFloat (x : Float) : Double :=
  Binary.ofBits binary64 x.toBits.toNat

def sine (x : Double) : Double :=
  ofFloat x.toFloat.sin

end Double

end SignalFlow.Numeric
