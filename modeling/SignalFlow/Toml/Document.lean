import SignalFlow.Toml.Scalar

/-!
# Reading documents

A document has one expression on a line; blank lines and comments stand between them. Only
arrays, and texts in three quotes, go over several lines.
-/

namespace SignalFlow.Toml

/-- Skips blanks, comments and line ends. A character that no comment may hold, and a carriage
return without a line feed, are nowhere allowed. -/
def skipSpace : (inComment : Bool) → List Char → Option (List Char)
  | _, [] => some []
  | _, '\r' :: '\n' :: rest => skipSpace false rest
  | _, '\n' :: rest => skipSpace false rest
  | true, c :: rest => if isPlain c then skipSpace true rest else none
  | false, c :: rest =>
    if isBlank c then skipSpace false rest
    else if c = '#' then skipSpace true rest
    else if c = '\r' then none
    else some (c :: rest)

/-- Reads the values of an array up to its bracket, at most `fuel` of them. A comma may stand
behind the last one. -/
def readItems (value : Reader Value) : (fuel : Nat) → Reader (List Value)
  | 0, _ => none
  | fuel + 1, s => do
    match ← skipSpace false s with
    | ']' :: rest => some ([], rest)
    | s =>
      let (item, rest) ← value s
      match ← skipSpace false rest with
      | ',' :: rest =>
        let (items, rest) ← readItems value fuel rest
        some (item :: items, rest)
      | ']' :: rest => some ([item], rest)
      | _ => none

/-- Reads a pair of a key and a value, which stand in one line. -/
def readPair (value : Reader Value) : Reader (List String × Value) := fun s ↦ do
  let (path, s) ← readKey s
  let (v, s) ← value (skipBlanks (← expect '=' s))
  some ((path, v), skipBlanks s)

/-- Reads at most `fuel` pairs with commas between them up to a brace. -/
def readPairs (value : Reader Value) : (fuel : Nat) → Reader (List (List String × Value))
  | 0, _ => none
  | fuel + 1, s => do
    let (pair, rest) ← readPair value s
    match rest with
    | ',' :: rest =>
      let (pairs, rest) ← readPairs value fuel rest
      some (pair :: pairs, rest)
    | '\x7d' :: rest => some ([pair], rest)
    | _ => none

/-- Reads a table in braces behind the first of them. -/
def readTable (value : Reader Value) : Reader Value := fun s ↦ do
  match skipBlanks s with
  | '\x7d' :: rest => some (.table .braces [], rest)
  | s =>
    let (pairs, rest) ← readPairs value (s.length + 1) s
    let entries ← Entries.insertPairs? .keyInBraces [] pairs
    some (.table .braces entries, rest)

/-- Reads a value, in which values are nested at most `depth` deep. -/
def readValue : (depth : Nat) → Reader Value
  | depth, s =>
    match s with
    | '"' :: _ | '\'' :: _ => (readText s).map fun (t, rest) ↦ (.text t, rest)
    | 't' :: 'r' :: 'u' :: 'e' :: rest => some (.boolean true, rest)
    | 'f' :: 'a' :: 'l' :: 's' :: 'e' :: rest => some (.boolean false, rest)
    | '[' :: rest =>
      match depth with
      | 0 => none
      | depth + 1 =>
        (readItems (readValue depth) (rest.length + 1) rest).map fun (items, rest) ↦
          (.array items, rest)
    | '\x7b' :: rest =>
      match depth with
      | 0 => none
      | depth + 1 => readTable (readValue depth) rest
    | s => if beginsDate s || beginsTime s then readMoment s else readNumber s

/-- Whether a line ends here, but for a comment. -/
def endsLine (s : List Char) : Bool :=
  match skipBlanks s with
  | [] | '\n' :: _ | '\r' :: '\n' :: _ | '#' :: _ => true
  | _ => false

def readExpression (s : List Char) : Option (Expression × List Char) := do
  let (expression, rest) ← match s with
    | '[' :: '[' :: rest => do
      let (path, rest) ← readKey rest
      some (.element path, ← expect ']' (← expect ']' rest))
    | '[' :: rest => do
      let (path, rest) ← readKey rest
      some (.header path, ← expect ']' rest)
    | s => do
      let ((path, value), rest) ← readPair (readValue (tooMany - 1)) s
      some (.pair path value, rest)
  if endsLine rest then some (expression, rest) else none

/-- Reads at most `fuel` expressions up to the end of a text. -/
def readExpressions : (fuel : Nat) → List Char → Option Document
  | 0, _ => none
  | fuel + 1, s => do
    match ← skipSpace false s with
    | [] => some []
    | s =>
      let (expression, rest) ← readExpression s
      let document ← readExpressions fuel rest
      some (expression :: document)

/-- Reads a document. A byte order mark in front of it is skipped. -/
def Document.read? (s : List Char) : Option Document :=
  let s := match s with
    | '\uFEFF' :: rest => rest
    | s => s
  readExpressions (s.length + 1) s

end SignalFlow.Toml
