import SignalFlow.Json.Quoted
import SignalFlow.Numeric.Layout
import SignalFlow.Numeric.Numeral

/-!
# Numbers in JSON

A whole number of at most 64 bits is kept exactly; every other number becomes a double. The
double is made from the digits as far as they fit 64 bits and a power of ten, each rounded
by itself, so that long numbers may come out one step beside the closest double. Numbers too
large for a double are refused.
-/

namespace SignalFlow.Json

open SignalFlow.Numeric

/-- A number as it is read. -/
inductive Number where
  | natural (n : Nat)
  | real (x : Double)
deriving DecidableEq

/-- How doubles are written: in full from `1e-5` up to `1e16`, with an exponent and its sign
beyond, and a whole number written in full keeps its fraction. -/
def numberLayout : Layout where
  inFull e := -5 ≤ e && e < 16
  keepsFraction := true
  plusSign := true
  tie := .even
  nan := "null"
  infinity := "null"

/-- A double as a JSON value. What is not finite has no number and is written as null. -/
def writeDouble (x : Double) : List Char :=
  if x.isFinite then numberLayout.write x else "null".toList

/-- The digits of a number as far as they are kept, and the power of ten that makes up for
those that are not. -/
structure Significand where
  value : Nat
  exponent : Int
deriving DecidableEq, Repr

/-- The greatest significand. -/
def greatestNatural : Nat := UInt64.size - 1

/-- Takes the digits before the point. Behind the first digit that does not fit, digits
count but are not kept. -/
def Significand.takeWhole (s : Significand) : List Char → Significand
  | [] => s
  | c :: rest =>
    let value := 10 * s.value + (c.toNat - '0'.toNat)
    if greatestNatural < value then ⟨s.value, s.exponent + (rest.length + 1 : Nat)⟩
    else takeWhole ⟨value, s.exponent⟩ rest

/-- Takes the digits behind the point up to the first that does not fit. -/
def Significand.takeFraction (s : Significand) : List Char → Significand
  | [] => s
  | c :: rest =>
    let value := 10 * s.value + (c.toNat - '0'.toNat)
    if greatestNatural < value then s else takeFraction ⟨value, s.exponent - 1⟩ rest

/-- The double closest to a power of ten. -/
def tenTo (n : Nat) : Double :=
  Binary.ofDecimal binary64 false ⟨1, n⟩

/-- Multiplies or divides a double by a power of ten, in steps of at most `1e308`, or says
that the result is too large. A division goes on until nothing is left, at most `fuel`
times. -/
def scaleByTen? : (fuel : Nat) → Double → Int → Option Double
  | fuel, x, exponent =>
    if exponent.natAbs ≤ 308 then
      if 0 ≤ exponent then (some (x * tenTo exponent.natAbs)).filter Binary.isFinite
      else some (x / tenTo exponent.natAbs)
    else if x.same (Binary.zero binary64 false) then some x
    else if 0 ≤ exponent then none
    else
      match fuel with
      | 0 => some (Binary.zero binary64 false)
      | fuel + 1 => scaleByTen? fuel (x / tenTo 308) (exponent + 308)

def Significand.toDouble (s : Significand) (negative : Bool) : Except Problem Double :=
  match scaleByTen? s.exponent.natAbs (Binary.ofNat binary64 s.value) s.exponent with
  | none => .error .malformed
  | some x => .ok (if negative then -x else x)

/-- Reads an exponent behind its mark: the exponent and the text behind it. -/
def readExponentPart (s : List Char) : Except Problem (Int × List Char) :=
  let (negative, s) := splitSign s
  match splitDigits s with
  | ([], []) => .error .ended
  | ([], _ :: _) => .error .malformed
  | (digits, rest) =>
    .ok (if negative then -(digitsValue digits : Int) else digitsValue digits, rest)

/-- Reads an exponent if there is one and makes the double. -/
def finishReal (negative : Bool) (s : Significand) (rest : List Char) :
    Except Problem (Number × List Char) := do
  let (exponent, rest) ←
    match rest with
    | c :: behind => if c = 'e' ∨ c = 'E' then readExponentPart behind else .ok (0, rest)
    | [] => .ok (0, rest)
  let x ← Significand.toDouble ⟨s.value, s.exponent + exponent⟩ negative
  return (.real x, rest)

/-- Reads a number behind its minus sign, if it has one: the number and the text behind. -/
def readUnsigned (negative : Bool) (s : List Char) : Except Problem (Number × List Char) :=
  match splitDigits s with
  | ([], []) => .error .ended
  | ([], _ :: _) => .error .malformed
  | ('0' :: _ :: _, _) => .error .malformed
  | (digits, '.' :: behind) =>
    let whole := Significand.takeWhole ⟨0, 0⟩ digits
    match splitDigits behind with
    | ([], []) => .error .ended
    | ([], _ :: _) => .error .malformed
    | (fraction, rest) => finishReal negative (whole.takeFraction fraction) rest
  | (digits, rest) =>
    let marked := match rest with
      | c :: _ => c = 'e' || c = 'E'
      | [] => false
    if !marked && !negative && digitsValue digits ≤ greatestNatural then
      .ok (.natural (digitsValue digits), rest)
    else finishReal negative (Significand.takeWhole ⟨0, 0⟩ digits) rest

end SignalFlow.Json
