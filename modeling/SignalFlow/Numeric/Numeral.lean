import SignalFlow.Numeric.Decimal

/-!
# Reading numbers

The grammars of numbers in parameter texts. A natural number is a non-empty row of decimal
digits with an optional plus sign. A decimal has a sign, digits with a point before, in or
after them, and an exponent, of which only one digit is required. The words for infinity
and not-a-number are read in any mixture of upper and lower case.
-/

namespace SignalFlow.Numeric

/-- The longest row of decimal digits at the start of a text, and the rest. -/
def splitDigits (s : List Char) : List Char × List Char :=
  (s.takeWhile Char.isDigit, s.dropWhile Char.isDigit)

def digitsValue (digits : List Char) : Nat :=
  Nat.ofDigitChars 10 digits 0

def readDigits? (s : List Char) : Option Nat :=
  if s.isEmpty || !s.all Char.isDigit then none else some (digitsValue s)

/-- Reads a natural number with an optional plus sign, up to a greatest value. -/
def readNatural? (greatest : Nat) (s : List Char) : Option Nat :=
  let digits := match s with
    | '+' :: rest => rest
    | _ => s
  (readDigits? digits).filter (· ≤ greatest)

def readInteger? : List Char → Option Int
  | '+' :: rest => (readDigits? rest).map Int.ofNat
  | '-' :: rest => (readDigits? rest).map fun n ↦ -(n : Int)
  | s => (readDigits? s).map Int.ofNat

/-- The decimal with the given digits before and after the point and a power of ten. -/
def Decimal.ofParts (whole fraction : List Char) (exponent : Int) : Decimal :=
  ⟨digitsValue (whole ++ fraction), exponent - fraction.length⟩

/-- Reads an exponent behind its mark, or nothing at all. -/
def readExponent? : List Char → Option Int
  | [] => some 0
  | c :: rest => if c = 'e' ∨ c = 'E' then readInteger? rest else none

def Decimal.read? (s : List Char) : Option Decimal :=
  let (whole, rest) := splitDigits s
  let (fraction, rest) := match rest with
    | '.' :: rest => splitDigits rest
    | _ => ([], rest)
  if whole.isEmpty && fraction.isEmpty then none
  else (readExponent? rest).map (Decimal.ofParts whole fraction)

/-- Takes the sign off a text, and says whether it is a minus. -/
def splitSign : List Char → Bool × List Char
  | '-' :: rest => (true, rest)
  | '+' :: rest => (false, rest)
  | s => (false, s)

/-- Reads a floating-point number, rounding to the closest. -/
def Binary.read? (f : Format) (s : List Char) : Option (Binary f) :=
  let (negative, s) := splitSign s
  let word := String.ofList (s.map Char.toLower)
  if word = "nan" then some .nan
  else if word = "inf" ∨ word = "infinity" then some (Binary.infinity f negative)
  else (Decimal.read? s).map (Binary.ofDecimal f negative)

end SignalFlow.Numeric
