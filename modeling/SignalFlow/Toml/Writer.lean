import SignalFlow.Numeric.Layout
import SignalFlow.Toml.Scalar

/-!
# Writing documents

A document is written as sections with a blank line between them, each with its header and a
pair on every line. Of the forms that a text may have, the first is taken that needs no
escapes: double quotes, single quotes, three double quotes, three single quotes. A text that
cannot do without is written in double quotes, in three of them if it has several lines.
-/

namespace SignalFlow.Toml

open SignalFlow.Numeric

/-- A value that is written. -/
inductive Scalar where
  | text (s : String)
  | integer (n : Int)
  | float (x : Double)

/-- A header with the pairs under it. -/
structure Section where
  path : List String
  pairs : List (String × Scalar)

/-- The longest run of a character in a text, `current` being the run that the text goes on
with. -/
def longestRun (c : Char) : (current : Nat) → List Char → Nat
  | current, [] => current
  | current, d :: rest =>
    if d = c then longestRun c (current + 1) rest else max current (longestRun c 0 rest)

/-- Whether a character is written by an escape in every form. -/
def needsEscape (c : Char) : Bool :=
  !isPlain c && c != '\n'

def escapeLetter? : Char → Option Char
  | '\x08' => some 'b'
  | '\t' => some 't'
  | '\n' => some 'n'
  | '\x0c' => some 'f'
  | '\r' => some 'r'
  | '"' => some '"'
  | '\\' => some '\\'
  | _ => none

def codeDigits (n : Nat) : List Char :=
  [n / 4096, n / 256, n / 16, n].map fun n ↦ (Nat.digitChar (n % 16)).toUpper

def escape (c : Char) : List Char :=
  match escapeLetter? c with
  | some letter => ['\\', letter]
  | none => '\\' :: 'u' :: codeDigits c.toNat

/-- A text between double quotes. Up to `free` double quotes in a row stand for themselves; the
next one is escaped, and counting begins anew behind every escape. In a text of several lines
line feeds stand for themselves. -/
def escapeText (lines : Bool) (free : Nat) : (run : Nat) → List Char → List Char
  | _, [] => []
  | run, c :: rest =>
    if c = '"' then
      if run < free then c :: escapeText lines free (run + 1) rest
      else escape c ++ escapeText lines free 0 rest
    else if c = '\n' ∧ lines then c :: escapeText lines free 0 rest
    else if c = '\\' ∨ c = '\t' ∨ !isPlain c then escape c ++ escapeText lines free 0 rest
    else c :: escapeText lines free 0 rest

/-- What is asked of a text to choose its form. -/
structure Traits where
  escapes : Bool
  backslash : Bool
  newline : Bool
  doubleQuotes : Nat
  singleQuotes : Nat
deriving DecidableEq, Repr

def Traits.ofText (s : List Char) : Traits where
  escapes := s.any needsEscape
  backslash := s.contains '\\'
  newline := s.contains '\n'
  doubleQuotes := longestRun '"' 0 s
  singleQuotes := longestRun '\'' 0 s

/-- The forms of a text. -/
inductive Form where
  | basic
  | literal
  | basicLines
  | literalLines
deriving DecidableEq, Repr

/-- The form that a text is written in. -/
def Traits.form (t : Traits) : Form :=
  if !t.escapes && !t.backslash && t.doubleQuotes == 0 && !t.newline then .basic
  else if !t.escapes && t.singleQuotes == 0 && !t.newline then .literal
  else if !t.escapes && !t.backslash && t.doubleQuotes ≤ 2 then .basicLines
  else if !t.escapes && t.singleQuotes ≤ 2 then .literalLines
  else if t.newline then .basicLines
  else .basic

/-- The line end behind the three quotes in front of a text of several lines. -/
def openingLineEnd (s : List Char) : List Char :=
  if s.contains '\n' then ['\n'] else []

def writeForm (s : List Char) : Form → List Char
  | .basic => '"' :: escapeText false 0 0 s ++ ['"']
  | .literal => '\'' :: s ++ ['\'']
  | .basicLines => "\"\"\"".toList ++ openingLineEnd s ++ escapeText true 2 0 s ++ "\"\"\"".toList
  | .literalLines => "'''".toList ++ openingLineEnd s ++ s ++ "'''".toList

def writeText (s : List Char) : List Char :=
  writeForm s (Traits.ofText s).form

/-- A part of a key: without quotes if it can be, and in one line. -/
def writeKey (s : List Char) : List Char :=
  let t := Traits.ofText s
  if !s.isEmpty && s.all isBare then s
  else if !t.escapes && !t.backslash && t.doubleQuotes == 0 && !t.newline then writeForm s .basic
  else if !t.escapes && t.singleQuotes == 0 && !t.newline then writeForm s .literal
  else writeForm s .basic

/-- How floating-point numbers are written: in full, and with a fraction. -/
def floatLayout : Layout :=
  { Layout.plain with keepsFraction := true, nan := "nan", infinity := "inf" }

def Scalar.write : Scalar → List Char
  | .text s => writeText s.toList
  | .integer n => (toString n).toList
  | .float x => floatLayout.write x

/-- The parts of a key with points between them. -/
def writePath : List String → List Char
  | [] => []
  | [key] => writeKey key.toList
  | key :: path => writeKey key.toList ++ '.' :: writePath path

def Section.write (s : Section) : List Char :=
  '[' :: writePath s.path ++ "]\n".toList ++
    s.pairs.flatMap fun (key, value) ↦ writeKey key.toList ++ " = ".toList ++ value.write ++ ['\n']

def writeSections : List Section → List Char
  | [] => []
  | [s] => s.write
  | s :: rest => s.write ++ '\n' :: writeSections rest

end SignalFlow.Toml
