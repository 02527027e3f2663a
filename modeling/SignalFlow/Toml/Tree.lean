import SignalFlow.Numeric.Binary

/-!
# The tree of a TOML document

A document is a row of expressions: pairs of a key and a value, and headers, under which the
pairs that follow stand. `Document.tree?` puts them together. Keys with several parts make the
tables on their way; a table is written in one place only, so a header opens a table that
exists only if it was made by headers further in, and a key with several parts goes on with a
table only if such a key or such headers made it.
-/

namespace SignalFlow.Toml

open SignalFlow.Numeric

/-- How a table was made: by braces, by a key with several parts between braces, by its own
header, by a header further in, or by a key with several parts outside of braces. -/
inductive Making where
  | braces
  | keyInBraces
  | header
  | innerHeader
  | key
deriving DecidableEq, Repr, Inhabited

/-- A value, or a part of a document that stands for one. -/
inductive Value where
  | text (s : String)
  | integer (n : Int)
  | float (x : Double)
  | boolean (b : Bool)
  | moment
  | array (items : List Value)
  | table (making : Making) (entries : List (String × Value))
  /-- Tables under headers in double brackets. -/
  | tables (elements : List Value)
deriving Inhabited

/-- Keys with their values in the order in which they came. -/
abbrev Entries := List (String × Value)

/-- An expression of a document. -/
inductive Expression where
  | pair (path : List String) (value : Value)
  | header (path : List String)
  | element (path : List String)

abbrev Document := List Expression

namespace Entries

def replace (entries : Entries) (key : String) (value : Value) : Entries :=
  entries.map fun (k, v) ↦ if k = key then (k, value) else (k, v)

def erase (entries : Entries) (key : String) : Entries :=
  entries.filter (·.1 != key)

/-- Puts a value in at the end of a path of keys. Tables on the way are made as `fresh` says;
of those that exist, the ones that may be gone on with are entered, and the last one must have
been made like them. -/
def insertAt? (fresh : Making) (value : Value) : (own : Bool) → List String → Entries →
    Option Entries
  | _, [], _ => none
  | own, [key], entries =>
    if own && (entries.lookup key).isNone then some (entries ++ [(key, value)]) else none
  | _, key :: path, entries =>
    match entries.lookup key with
    | none => do
      let inner ← insertAt? fresh value true path []
      some (entries ++ [(key, .table fresh inner)])
    | some (.table making inner) =>
      if making = fresh ∨ fresh = .key ∧ making = .innerHeader then do
        let inner ← insertAt? fresh value (making == fresh) path inner
        some (replace entries key (.table making inner))
      else none
    | some (.tables elements) =>
      match elements.getLast? with
      | some (.table making inner) => do
        let inner ← insertAt? fresh value false path inner
        some (replace entries key (.tables (elements.dropLast ++ [.table making inner])))
      | _ => none
    | some _ => none

def insertPairs? (fresh : Making) (entries : Entries) (pairs : List (List String × Value)) :
    Option Entries :=
  pairs.foldlM (fun entries (path, value) ↦ insertAt? fresh value true path entries) entries

/-- Changes the entries that a row of keys in headers leads to. Of tables under double
brackets the last is entered. -/
def changeAt? (change : Entries → Option Entries) : List String → Entries → Option Entries
  | [], entries => change entries
  | key :: path, entries =>
    match entries.lookup key with
    | none => do
      let inner ← changeAt? change path []
      some (entries ++ [(key, .table .innerHeader inner)])
    | some (.table making inner) =>
      if making = .braces ∨ making = .keyInBraces then none
      else do
        let inner ← changeAt? change path inner
        some (replace entries key (.table making inner))
    | some (.tables elements) =>
      match elements.getLast? with
      | some (.table making inner) => do
        let inner ← changeAt? change path inner
        some (replace entries key (.tables (elements.dropLast ++ [.table making inner])))
      | _ => none
    | some _ => none

/-- Writes the table of a header, with the pairs that stand under it. -/
def openTable? (key : String) (pairs : List (List String × Value)) (entries : Entries) :
    Option Entries := do
  let old ← match entries.lookup key with
    | none => some []
    | some (.table .innerHeader inner) => some inner
    | some _ => none
  let inner ← insertPairs? .key old pairs
  some (erase entries key ++ [(key, .table .header inner)])

/-- Adds a table under a header in double brackets. -/
def addElement? (key : String) (pairs : List (List String × Value)) (entries : Entries) :
    Option Entries := do
  let inner ← insertPairs? .key [] pairs
  match entries.lookup key with
  | none => some (entries ++ [(key, .tables [.table .header inner])])
  | some (.tables elements) =>
    some (replace entries key (.tables (elements ++ [.table .header inner])))
  | some _ => none

end Entries

namespace Document

/-- The pairs up to the next header, and what follows. -/
def pairs : Document → List (List String × Value) × Document
  | .pair path value :: rest => ((path, value) :: (pairs rest).1, (pairs rest).2)
  | rest => ([], rest)

/-- Puts the headers and what stands under them in one after the other, at most `fuel`
expressions. -/
def sections? : (fuel : Nat) → Entries → Document → Option Entries
  | 0, entries, _ => some entries
  | fuel + 1, entries, document =>
    let put (path : List String) (rest : Document)
        (write : String → List (List String × Value) → Entries → Option Entries) :
        Option Entries := do
      let (pairs, rest) := pairs rest
      let key ← path.getLast?
      let entries ← Entries.changeAt? (write key pairs) path.dropLast entries
      sections? fuel entries rest
    match document with
    | [] => some entries
    | .header path :: rest => put path rest Entries.openTable?
    | .element path :: rest => put path rest Entries.addElement?
    | .pair _ _ :: _ => none

/-- The entries of a document, if its expressions fit together. -/
def tree? (document : Document) : Option Entries := do
  let (pairs, rest) := document.pairs
  let entries ← Entries.insertPairs? .key [] pairs
  sections? rest.length entries rest

end Document

end SignalFlow.Toml
