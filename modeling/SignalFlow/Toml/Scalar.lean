import SignalFlow.Numeric.Numeral
import SignalFlow.Json.Quoted
import SignalFlow.Toml.Tree

/-!
# Reading keys, texts, numbers and times

Each reader takes what it reads from the beginning of a text and gives the rest, or nothing
if the text does not begin as it must. A text holds no control characters but tabs, and line
ends where it may have several lines; a carriage return stands only before a line feed, and
both together count as a line feed.
-/

namespace SignalFlow.Toml

open SignalFlow.Numeric

/-- Takes something from the beginning of a text. -/
abbrev Reader (α : Type) := List Char → Option (α × List Char)

def isBlank (c : Char) : Bool :=
  c == ' ' || c == '\t'

def skipBlanks (s : List Char) : List Char :=
  s.dropWhile isBlank

/-- A character that stands for itself: no control character but the tab. -/
def isPlain (c : Char) : Bool :=
  c == '\t' || (0x20 ≤ c.toNat && c.toNat != 0x7F)

def expect (c : Char) : List Char → Option (List Char)
  | [] => none
  | d :: rest => if d = c then some rest else none

/-- The character of a code in hexadecimal digits, if there is one. -/
def ofCode? (digits : List Char) : Option Char := do
  let code ← digits.foldlM (fun n c ↦ (Json.hexDigit? c).map (16 * n + ·)) 0
  if h : code.isValidChar then some (Char.ofNatAux code h) else none

/-- The character that a letter stands for behind a backslash. -/
def unescape? : Char → Option Char
  | 'b' => some '\x08'
  | 't' => some '\t'
  | 'n' => some '\n'
  | 'f' => some '\x0c'
  | 'r' => some '\r'
  | '"' => some '"'
  | '\\' => some '\\'
  | _ => none

def readEscape : Reader Char
  | 'u' :: a :: b :: c :: d :: rest => (ofCode? [a, b, c, d]).map (·, rest)
  | 'U' :: a :: b :: c :: d :: e :: f :: g :: h :: rest =>
    (ofCode? [a, b, c, d, e, f, g, h]).map (·, rest)
  | c :: rest => (unescape? c).map (·, rest)
  | [] => none

/-- Reads up to the closing double quote, at most `fuel` characters. -/
def readBasic : (fuel : Nat) → Reader (List Char)
  | 0, _ => none
  | fuel + 1, s =>
    match s with
    | '"' :: rest => some ([], rest)
    | '\\' :: rest => do
      let (c, rest) ← readEscape rest
      let (cs, rest) ← readBasic fuel rest
      some (c :: cs, rest)
    | c :: rest =>
      if isPlain c then (readBasic fuel rest).map fun (cs, rest) ↦ (c :: cs, rest) else none
    | [] => none

def readLiteral : Reader (List Char)
  | '\'' :: rest => some ([], rest)
  | c :: rest =>
    if isPlain c then (readLiteral rest).map fun (cs, rest) ↦ (c :: cs, rest) else none
  | [] => none

/-- The quotes at the beginning of a text. -/
def leadingQuotes (quote : Char) (s : List Char) : Nat :=
  (s.takeWhile (· == quote)).length

/-- What quotes in a text of several lines are: three close it, up to two more in front of them
belong to it, and fewer than three belong to it as well. The result says how many quotes
belong, how many are taken, and whether the text is closed. -/
def quotesOf (count : Nat) : Nat × Nat × Bool :=
  if 3 ≤ count then (min count 5 - 3, min count 5, true) else (count, count, false)

/-- Skips blanks and line ends. -/
def skipLines : List Char → List Char
  | '\r' :: '\n' :: rest => skipLines rest
  | '\n' :: rest => skipLines rest
  | c :: rest => if isBlank c then skipLines rest else c :: rest
  | [] => []

/-- Skips the end of a line behind blanks, and the blanks and line ends that follow. -/
def skipLineEnd? (s : List Char) : Option (List Char) :=
  match skipBlanks s with
  | '\n' :: rest => some (skipLines rest)
  | '\r' :: '\n' :: rest => some (skipLines rest)
  | _ => none

/-- Reads a text of several lines up to its closing quotes, at most `fuel` characters. In
double quotes a backslash escapes a character or the end of its line. -/
def readLines (quote : Char) (escapes : Bool) : (fuel : Nat) → Reader (List Char)
  | 0, _ => none
  | fuel + 1, s =>
    match s with
    | [] => none
    | '\r' :: '\n' :: rest =>
      (readLines quote escapes fuel rest).map fun (cs, rest) ↦ ('\n' :: cs, rest)
    | '\n' :: rest =>
      (readLines quote escapes fuel rest).map fun (cs, rest) ↦ ('\n' :: cs, rest)
    | c :: rest =>
      if c = quote then
        let (own, taken, closed) := quotesOf (leadingQuotes quote s)
        let quotes := List.replicate own quote
        if closed then some (quotes, s.drop taken)
        else
          (readLines quote escapes fuel (s.drop taken)).map fun (cs, rest) ↦ (quotes ++ cs, rest)
      else if escapes && c == '\\' then
        match skipLineEnd? rest with
        | some rest => readLines quote escapes fuel rest
        | none => do
          let (c, rest) ← readEscape rest
          let (cs, rest) ← readLines quote escapes fuel rest
          some (c :: cs, rest)
      else if isPlain c then
        (readLines quote escapes fuel rest).map fun (cs, rest) ↦ (c :: cs, rest)
      else none

/-- The text behind the line end that may follow opening quotes. -/
def skipFirstLineEnd : List Char → List Char
  | '\n' :: rest => rest
  | '\r' :: '\n' :: rest => rest
  | s => s

/-- Reads a text in quotes of any of the four forms. -/
def readText : Reader String
  | '"' :: '"' :: '"' :: rest =>
    (readLines '"' true (rest.length + 1) (skipFirstLineEnd rest)).map fun (cs, rest) ↦
      (String.ofList cs, rest)
  | '\'' :: '\'' :: '\'' :: rest =>
    (readLines '\'' false (rest.length + 1) (skipFirstLineEnd rest)).map fun (cs, rest) ↦
      (String.ofList cs, rest)
  | '"' :: rest =>
    (readBasic (rest.length + 1) rest).map fun (cs, rest) ↦ (String.ofList cs, rest)
  | '\'' :: rest => (readLiteral rest).map fun (cs, rest) ↦ (String.ofList cs, rest)
  | _ => none

/-- A character of a key without quotes. -/
def isBare (c : Char) : Bool :=
  c.isAlphanum || c == '_' || c == '-'

def readPart : Reader String
  | '"' :: rest =>
    (readBasic (rest.length + 1) rest).map fun (cs, rest) ↦ (String.ofList cs, rest)
  | '\'' :: rest => (readLiteral rest).map fun (cs, rest) ↦ (String.ofList cs, rest)
  | s =>
    let (key, rest) := s.span isBare
    if key.isEmpty then none else some (String.ofList key, rest)

/-- The number of parts that is too many for a key, and of levels for nested values. -/
def tooMany : Nat := 80

/-- Reads at most `fuel` parts of a key with points between them and blanks around them. -/
def readParts : (fuel : Nat) → Reader (List String)
  | 0, _ => none
  | fuel + 1, s => do
    let (part, rest) ← readPart (skipBlanks s)
    match skipBlanks rest with
    | '.' :: rest =>
      let (parts, rest) ← readParts fuel rest
      some (part :: parts, rest)
    | rest => some ([part], rest)

def readKey : Reader (List String) :=
  readParts (tooMany - 1)

/-! ## Numbers -/

/-- Reads digits, between which underscores may stand one at a time. -/
def readGrouped (isDigit : Char → Bool) : Reader (List Char)
  | [] => none
  | [c] => if isDigit c then some ([c], []) else none
  | c :: '_' :: rest =>
    if isDigit c then (readGrouped isDigit rest).map fun (cs, rest) ↦ (c :: cs, rest) else none
  | c :: d :: rest =>
    if !isDigit c then none
    else if isDigit d then (readGrouped isDigit (d :: rest)).map fun (cs, rest) ↦ (c :: cs, rest)
    else some ([c], d :: rest)

/-- Reads a decimal number without a fraction. A zero in front stands alone. -/
def readWhole : Reader (List Char)
  | '0' :: rest => some (['0'], rest)
  | s => readGrouped Char.isDigit s

def integer? (n : Int) : Option Value :=
  if Int64.minValue.toInt ≤ n ∧ n ≤ Int64.maxValue.toInt then some (.integer n) else none

def readBased (base : Nat) (s : List Char) : Option (Value × List Char) := do
  let isDigit (c : Char) : Bool := (Json.hexDigit? c).any (· < base)
  let (digits, rest) ← readGrouped isDigit s
  let n := digits.foldl (fun n c ↦ base * n + (Json.hexDigit? c).getD 0) 0
  (integer? n).map (·, rest)

/-- Reads the digits of an exponent behind its mark, with their sign. -/
def readExponent (s : List Char) : Option (Int × List Char) := do
  let (negative, s) := splitSign s
  let (digits, rest) ← readGrouped Char.isDigit s
  some (if negative then -(digitsValue digits : Int) else digitsValue digits, rest)

/-- A floating-point number. One that is too great is refused, but not below zero. -/
def float? (negative : Bool) (d : Decimal) : Option Value :=
  let x := Binary.ofDecimal binary64 negative d
  if x = Binary.infinity binary64 false then none else some (.float x)

/-- Reads what may follow the whole part of a number: a fraction, an exponent, or both. -/
def readDecimal (negative : Bool) (whole : List Char) (s : List Char) :
    Option (Value × List Char) := do
  let (fraction, isFloat, s) ← match s with
    | '.' :: rest => do
      let (fraction, rest) ← readGrouped Char.isDigit rest
      some (fraction, true, rest)
    | s => some ([], false, s)
  let (exponent, isFloat, s) ← match s with
    | c :: rest =>
      if c = 'e' ∨ c = 'E' then do
        let (exponent, rest) ← readExponent rest
        some (exponent, true, rest)
      else some (0, isFloat, s)
    | [] => some (0, isFloat, s)
  let n := digitsValue (whole ++ fraction)
  if isFloat then (float? negative ⟨n, exponent - fraction.length⟩).map (·, s)
  else (integer? (if negative then -n else n)).map (·, s)

def readNumber (s : List Char) : Option (Value × List Char) :=
  match s with
  | '0' :: 'x' :: rest => readBased 16 rest
  | '0' :: 'o' :: rest => readBased 8 rest
  | '0' :: 'b' :: rest => readBased 2 rest
  | s =>
    let (negative, s) := splitSign s
    match s with
    | 'i' :: 'n' :: 'f' :: rest => some (.float (Binary.infinity binary64 negative), rest)
    | 'n' :: 'a' :: 'n' :: rest => some (.float .nan, rest)
    | s => do
      let (whole, rest) ← readWhole s
      readDecimal negative whole rest

/-- Reads `count` digits as a number between two bounds. -/
def readField (count lower upper : Nat) (s : List Char) : Option (Nat × List Char) :=
  let digits := s.take count
  let n := digitsValue digits
  if digits.length = count ∧ digits.all Char.isDigit ∧ lower ≤ n ∧ n ≤ upper then
    some (n, s.drop count)
  else none

def daysIn (year month : Nat) : Nat :=
  if month = 2 then
    if year % 4 = 0 ∧ (year % 100 ≠ 0 ∨ year % 400 = 0) then 29 else 28
  else if month = 4 ∨ month = 6 ∨ month = 9 ∨ month = 11 then 30
  else 31

/-- Takes the digits behind a point, if there are any. -/
def skipFraction : List Char → List Char
  | '.' :: c :: rest => if c.isDigit then rest.dropWhile Char.isDigit else '.' :: c :: rest
  | s => s

def readTime (s : List Char) : Option (List Char) := do
  let (_, s) ← readField 2 0 23 s
  let (_, s) ← readField 2 0 59 (← expect ':' s)
  let (_, s) ← readField 2 0 60 (← expect ':' s)
  some (skipFraction s)

/-- Reads the distance from universal time, if there is one. -/
def readOffset (s : List Char) : Option (List Char) :=
  match s with
  | 'Z' :: rest | 'z' :: rest => some rest
  | '+' :: rest | '-' :: rest => do
    let (_, s) ← readField 2 0 23 rest
    let (_, s) ← readField 2 0 59 (← expect ':' s)
    some s
  | s => some s

def readDate (s : List Char) : Option (List Char) := do
  let (year, s) ← readField 4 0 9999 s
  let (month, s) ← readField 2 1 12 (← expect '-' s)
  let (_, s) ← readField 2 1 (daysIn year month) (← expect '-' s)
  some s

/-- Whether a text begins like a time of day. -/
def beginsTime : List Char → Bool
  | a :: b :: ':' :: _ => a.isDigit && b.isDigit
  | _ => false

def beginsDate : List Char → Bool
  | a :: b :: c :: d :: '-' :: _ => a.isDigit && b.isDigit && c.isDigit && d.isDigit
  | _ => false

/-- Reads a date with the time behind it, if there is one, or a time. -/
def readMoment (s : List Char) : Option (Value × List Char) := do
  if beginsTime s then some (.moment, ← readTime s)
  else
    let rest ← readDate s
    match rest with
    | c :: behind =>
      if c = 'T' ∨ c = 't' ∨ c = ' ' ∧ beginsTime behind then
        some (.moment, ← readOffset (← readTime behind))
      else some (.moment, rest)
    | [] => some (.moment, [])

end SignalFlow.Toml
