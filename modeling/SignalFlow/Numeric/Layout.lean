import SignalFlow.Numeric.Decimal

/-!
# The written form of floating-point numbers

The digits of a number are chosen by `Format.shortest`; a layout decides how they are set
out: up to which exponents the number is written without one, whether a whole number keeps
a fraction, and how not-a-number and infinity are spelled. A number can also be rounded to a
fixed number of places behind the point, a tie going to the even neighbour, and written with
all of them.
-/

namespace SignalFlow.Numeric

/-- The decisions of a written form. -/
structure Layout where
  /-- Whether a number with this exponent of its leading digit is written out in full. -/
  inFull : Int → Bool
  /-- Whether a whole number written out in full ends in a point and a zero. -/
  keepsFraction : Bool
  /-- Whether a positive exponent has a plus sign. -/
  plusSign : Bool
  tie : Tie
  nan : String
  infinity : String

namespace Layout

/-- Every digit from the first to the last or to the units, and no exponent. -/
def plain : Layout where
  inFull _ := true
  keepsFraction := false
  plusSign := false
  tie := .upper
  nan := "NaN"
  infinity := "inf"

/-- An exponent from `1e16` up and below `0.0001`; a whole number keeps its fraction. -/
def annotated : Layout where
  inFull e := -4 ≤ e && e < 16
  keepsFraction := true
  plusSign := false
  tie := .upper
  nan := "NaN"
  infinity := "inf"

/-- The digits with a point in, before or after them as the exponent says. -/
def positional (layout : Layout) (digits : List Char) (exponent : Int) : List Char :=
  let zeros := List.replicate (-exponent - digits.length).toNat '0'
  let whole := (digits.length + exponent).toNat
  if 0 ≤ exponent then
    digits ++ List.replicate exponent.toNat '0' ++ (if layout.keepsFraction then ['.', '0'] else [])
  else if whole = 0 then '0' :: '.' :: (zeros ++ digits)
  else digits.take whole ++ '.' :: digits.drop whole

/-- The digits with a point after the first and the exponent of the first behind them. -/
def scientific (layout : Layout) (digits : List Char) (leading : Int) : List Char :=
  let mantissa :=
    match digits with
    | first :: second :: rest => first :: '.' :: second :: rest
    | _ => digits
  let sign := if leading < 0 then ['-'] else if layout.plusSign then ['+'] else []
  mantissa ++ 'e' :: (sign ++ Nat.toDigits 10 leading.natAbs)

def magnitude (layout : Layout) (f : Format) (rank : Nat) : List Char :=
  if rank = 0 then if layout.keepsFraction then ['0', '.', '0'] else ['0']
  else if rank = f.infinityRank then layout.infinity.toList
  else
    let d := f.shortest layout.tie rank
    if layout.inFull d.leadingExponent then layout.positional d.text d.exponent
    else layout.scientific d.text d.leadingExponent

def write (layout : Layout) {f : Format} : Binary f → List Char
  | .nan => layout.nan.toList
  | .number negative rank _ =>
    if negative then '-' :: layout.magnitude f rank else layout.magnitude f rank

/-- The written form of a number as a string. -/
def render (layout : Layout) {f : Format} (x : Binary f) : String :=
  String.ofList (layout.write x)

end Layout

/-- A whole number of units of the last place, with the point in front of so many digits. -/
def placePoint (places n : Nat) : List Char :=
  let digits := Nat.toDigits 10 n
  let padded := List.replicate (places + 1 - digits.length) '0' ++ digits
  let whole := padded.length - places
  if places = 0 then padded else padded.take whole ++ '.' :: padded.drop whole

/-- A number with so many places behind the point. -/
def Binary.fixed (places : Nat) {f : Format} : Binary f → List Char
  | .nan => "NaN".toList
  | .number negative rank _ =>
    let magnitude :=
      if rank = f.infinityRank then "inf".toList
      else placePoint places (Format.divideToEven (f.units rank * Nat.pow 10 places) f.one)
    if negative then '-' :: magnitude else magnitude

end SignalFlow.Numeric
