import SignalFlow.Json.Number

/-!
# The tokens of JSON

A JSON text is a row of tokens with blanks between them. Where a token cannot be read the row
ends in a defect, which says what is wrong and whether a quoted text had begun. The reader of
the tokens decides whether it looks at the defect or at the place where it stands.

No value of this library is an array or an object inside another, but a text may hold one.
It is read to its end before it is found unfit, since a text that is no JSON at all is worse.
Values are nested at most 127 deep.
-/

namespace SignalFlow.Json

open SignalFlow.Numeric

/-- A token of a JSON text. -/
inductive Token where
  | beginObject
  | endObject
  | beginArray
  | endArray
  | colon
  | comma
  | null
  | truth (b : Bool)
  | number (n : Number)
  | text (s : List Char)
  | defect (inText : Bool) (problem : Problem)
deriving DecidableEq

def isBlank (c : Char) : Bool :=
  c == ' ' || c == '\n' || c == '\t' || c == '\r'

/-- Reads the letters of a word: the text behind it, or what is wrong at the first letter
that is missing. -/
def readWord : (word : List Char) → List Char → Except Problem (List Char)
  | [], s => .ok s
  | _ :: _, [] => .error .ended
  | w :: word, c :: rest => if c = w then readWord word rest else .error .malformed

def mark? : Char → Option Token
  | '\x7b' => some .beginObject
  | '\x7d' => some .endObject
  | '[' => some .beginArray
  | ']' => some .endArray
  | ':' => some .colon
  | ',' => some .comma
  | _ => none

/-- Reads the token that begins with a character that is not blank, with the text behind. -/
def readToken (c : Char) (rest : List Char) : Except Token (Token × List Char) :=
  let word (letters : String) (token : Token) : Except Token (Token × List Char) :=
    match readWord letters.toList rest with
    | .ok rest => .ok (token, rest)
    | .error problem => .error (.defect false problem)
  let number (negative : Bool) (s : List Char) : Except Token (Token × List Char) :=
    match readUnsigned negative s with
    | .ok (n, rest) => .ok (.number n, rest)
    | .error problem => .error (.defect false problem)
  match mark? c with
  | some token => .ok (token, rest)
  | none =>
    if c = '"' then
      match readQuoted .plain [] rest with
      | .ok (s, rest) => .ok (.text s, rest)
      | .error problem => .error (.defect true problem)
    else if c = 'n' then word "ull" .null
    else if c = 't' then word "rue" (.truth true)
    else if c = 'f' then word "alse" (.truth false)
    else if c = '-' then number true rest
    else if c.isDigit then number false (c :: rest)
    else .error (.defect false .malformed)

/-- The tokens of a text, at most `fuel` of them. -/
def tokensWithin : (fuel : Nat) → List Char → List Token
  | 0, _ => []
  | fuel + 1, s =>
    match s.dropWhile isBlank with
    | [] => []
    | c :: rest =>
      match readToken c rest with
      | .ok (token, rest) => token :: tokensWithin fuel rest
      | .error defect => [defect]

/-- The tokens of a text. Each takes at least one character. -/
def tokens (s : List Char) : List Token :=
  tokensWithin s.length s

/-- An array or an object that has begun. -/
inductive Bracket where
  | array
  | object
deriving DecidableEq, Repr

/-- What may stand next in the innermost array or object. -/
inductive Expecting where
  | elementOrEnd
  | element
  | keyOrEnd
  | key
  | colon
  | commaOrEnd
deriving DecidableEq, Repr

/-- The depth at which nothing more may begin. -/
def deepest : Nat := 127

/-- What may stand first in an array or object. -/
def Bracket.first : Bracket → Expecting
  | .array => .elementOrEnd
  | .object => .keyOrEnd

/-- What may stand behind a comma. -/
def Bracket.next : Bracket → Expecting
  | .array => .element
  | .object => .key

def Bracket.last : Bracket → Token
  | .array => .endArray
  | .object => .endObject

/-- Reads tokens until the arrays and objects that have begun are at an end. The innermost
is `bracket`, and `outer` are those around it, inside `depth` further ones. -/
def closeAll (depth : Nat) : (bracket : Bracket) → (outer : List Bracket) → Expecting →
    List Token → Except Problem Unit
  | _, _, _, [] => .error .ended
  | bracket, outer, expecting, token :: rest =>
    let close (_ : Unit) : Except Problem Unit :=
      match outer with
      | [] => .ok ()
      | b :: bs => closeAll depth b bs .commaOrEnd rest
    let element (_ : Unit) : Except Problem Unit :=
      let enter (b : Bracket) : Except Problem Unit :=
        if deepest ≤ depth + outer.length + 1 then .error .malformed
        else closeAll depth b (bracket :: outer) b.first rest
      match token with
      | .null | .truth _ | .number _ | .text _ => closeAll depth bracket outer .commaOrEnd rest
      | .beginArray => enter .array
      | .beginObject => enter .object
      | .defect _ problem => .error problem
      | .endObject | .endArray | .colon | .comma => .error .malformed
    let key (_ : Unit) : Except Problem Unit :=
      match token with
      | .text _ => closeAll depth bracket outer .colon rest
      | .defect true problem => .error problem
      | _ => .error .malformed
    match expecting with
    | .elementOrEnd => if token = bracket.last then close () else element ()
    | .element => element ()
    | .keyOrEnd => if token = bracket.last then close () else key ()
    | .key => key ()
    | .colon =>
      if token = .colon then closeAll depth bracket outer .element rest else .error .malformed
    | .commaOrEnd =>
      if token = bracket.last then close ()
      else if token = .comma then closeAll depth bracket outer bracket.next rest
      else .error .malformed

/-- What is wrong with an array or object where something else is wanted. -/
def unfitNested (depth : Nat) (bracket : Bracket) (rest : List Token) : Problem :=
  if deepest ≤ depth then .malformed
  else
    match closeAll depth bracket [] bracket.first rest with
    | .ok () => .unfit
    | .error problem => problem

end SignalFlow.Json
