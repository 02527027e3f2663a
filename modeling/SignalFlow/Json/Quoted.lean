/-!
# Quoted text in JSON

A text is written between quotes with an escape for the quote, the backslash and the control
characters below the space; all else stands for itself. Reading goes through the text one
character at a time. It takes every escape of JSON, joins pairs of escaped surrogates and
refuses a surrogate that stands alone.
-/

namespace SignalFlow.Json

/-- What is wrong with a JSON text: it ends too early, it is not JSON, or it is JSON that
says something else than what is wanted. -/
inductive Problem where
  | ended
  | malformed
  | unfit
deriving DecidableEq, Repr

def escapeLetter? : Char → Option Char
  | '"' => some '"'
  | '\\' => some '\\'
  | '\x08' => some 'b'
  | '\x0c' => some 'f'
  | '\n' => some 'n'
  | '\r' => some 'r'
  | '\t' => some 't'
  | _ => none

def escape (c : Char) : List Char :=
  match escapeLetter? c with
  | some l => ['\\', l]
  | none =>
    if c.toNat < 0x20 then
      ['\\', 'u', '0', '0', Nat.digitChar (c.toNat / 16), Nat.digitChar (c.toNat % 16)]
    else [c]

def quote (s : List Char) : List Char :=
  '"' :: (s.flatMap escape ++ ['"'])

/-- The character that a letter stands for behind a backslash. -/
def unescape? : Char → Option Char
  | '"' => some '"'
  | '\\' => some '\\'
  | '/' => some '/'
  | 'b' => some '\x08'
  | 'f' => some '\x0c'
  | 'n' => some '\n'
  | 'r' => some '\r'
  | 't' => some '\t'
  | _ => none

def hexDigit? (c : Char) : Option Nat :=
  if c.isDigit then some (c.toNat - '0'.toNat)
  else if 'a' ≤ c ∧ c ≤ 'f' then some (c.toNat - 'a'.toNat + 10)
  else if 'A' ≤ c ∧ c ≤ 'F' then some (c.toNat - 'A'.toNat + 10)
  else none

def isLeadingSurrogate (n : Nat) : Bool :=
  0xD800 ≤ n && n ≤ 0xDBFF

def isTrailingSurrogate (n : Nat) : Bool :=
  0xDC00 ≤ n && n ≤ 0xDFFF

/-- The character of a pair of surrogates. -/
def joinSurrogates (leading trailing : Nat) : Char :=
  Char.ofNat ((leading - 0xD800) * 0x400 + (trailing - 0xDC00) + 0x10000)

/-- Where reading stands: at a character, behind a backslash, in the four digits of a code,
or between the two halves of a surrogate pair. -/
inductive QuoteState where
  | plain
  | escape
  | code (digitsLeft value : Nat) (leading : Option Nat)
  | betweenHalves (leading : Nat)
  | betweenHalvesEscape (leading : Nat)

/-- Whether four bytes of text are left, which is what a code takes. -/
def hasCode (s : List Char) : Bool :=
  4 ≤ (s.take 4).foldl (fun bytes c ↦ bytes + c.utf8Size) 0

/-- The state behind the last digit of a code, with the character it completes. -/
def finishCode (value : Nat) : Option Nat → Except Problem (QuoteState × Option Char)
  | none =>
    if isTrailingSurrogate value then .error .malformed
    else if isLeadingSurrogate value then .ok (.betweenHalves value, none)
    else .ok (.plain, some (Char.ofNat value))
  | some leading =>
    if isTrailingSurrogate value then .ok (.plain, some (joinSurrogates leading value))
    else .error .malformed

/-- Reads up to the closing quote. The characters read so far are in `read`, the last one
first; the result holds them in order with the text behind the quote. -/
def readQuoted : QuoteState → (read : List Char) → List Char →
    Except Problem (List Char × List Char)
  | _, _, [] => .error .ended
  | .plain, read, c :: rest =>
    if c = '"' then .ok (read.reverse, rest)
    else if c = '\\' then readQuoted .escape read rest
    else if c.toNat < 0x20 then .error .malformed
    else readQuoted .plain (c :: read) rest
  | .escape, read, c :: rest =>
    if c = 'u' then
      if hasCode rest then readQuoted (.code 4 0 none) read rest else .error .ended
    else
      match unescape? c with
      | some d => readQuoted .plain (d :: read) rest
      | none => .error .malformed
  | .code digitsLeft value leading, read, c :: rest =>
    match hexDigit? c with
    | none => .error .malformed
    | some digit =>
      let value := 16 * value + digit
      if 1 < digitsLeft then readQuoted (.code (digitsLeft - 1) value leading) read rest
      else
        match finishCode value leading with
        | .error problem => .error problem
        | .ok (state, c?) => readQuoted state (c?.toList ++ read) rest
  | .betweenHalves leading, read, c :: rest =>
    if c = '\\' then readQuoted (.betweenHalvesEscape leading) read rest else .error .malformed
  | .betweenHalvesEscape leading, read, c :: rest =>
    if c ≠ 'u' then .error .malformed
    else if hasCode rest then readQuoted (.code 4 0 (some leading)) read rest
    else .error .ended

end SignalFlow.Json
