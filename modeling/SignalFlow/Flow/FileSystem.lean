import SignalFlow.Text

/-!
# Files and directories

A file system as a value: which directories there are below the working directory, and which
files with which bytes. A path is a row of names with slashes between them. On its way it
passes through directories only; a slash behind the last name asks for a directory too.
-/

namespace SignalFlow.Flow

open SignalFlow.Text

/-- What goes wrong with a file. -/
inductive FileFault where
  | notFound
  | alreadyExists
  | notADirectory
  | isADirectory
  | notText
  | other (description : String)
deriving DecidableEq, Repr

def FileFault.text : FileFault → String
  | .notFound => "No such file or directory (os error 2)"
  | .alreadyExists => "File exists (os error 17)"
  | .notADirectory => "Not a directory (os error 20)"
  | .isADirectory => "Is a directory (os error 21)"
  | .notText => "stream did not contain valid UTF-8"
  | .other description => description

namespace Path

/-- The names of a path, with empty ones where slashes meet. -/
def names (path : String) : List (List Char) :=
  pieces '/' path.toList

def ofNames (names : List (List Char)) : String :=
  String.ofList (List.intercalate ['/'] names)

/-- The names without those at the end that change nothing. The first name stays. -/
def trim (names : List (List Char)) : List (List Char) :=
  names.take 1 ++ ((names.drop 1).reverse.dropWhile fun n ↦ n == [] || n == ['.']).reverse

/-- The path to the directory that holds what a path names. -/
def parent? (path : String) : Option String :=
  match trim (names path) with
  | [] | [[]] => none
  | trimmed =>
    match trim trimmed.dropLast with
    | [[]] => some "/"
    | parent => some (ofNames parent)

end Path

/-- A file with its bytes, or a directory. -/
inductive FileEntry where
  | file (bytes : ByteArray)
  | directory
deriving Inhabited

/-- A place below the working directory, as the names on the way to it. -/
abbrev Place := List (List Char)

/-- Files and directories by their places. The working directory itself is not listed. -/
structure FileSystem where
  entries : List (Place × FileEntry)
deriving Inhabited

namespace FileSystem

def empty : FileSystem where
  entries := []

/-- What there is at a place. -/
def entry? (fs : FileSystem) (place : Place) : Option FileEntry :=
  if place.isEmpty then some .directory else fs.entries.lookup place

/-- Puts something at a place, instead of what was there. -/
def put (fs : FileSystem) (place : Place) (entry : FileEntry) : FileSystem where
  entries := (place, entry) :: fs.entries.filter (·.1 != place)

/-- Goes from a directory along names: the place that they lead to, and whether it must be a
directory. The last name may be new. -/
def walk (fs : FileSystem) : Place → List (List Char) → Except FileFault (Place × Bool)
  | here, [] => .ok (here, false)
  | here, name :: rest =>
    if name = [] ∨ name = ['.'] then
      if rest.isEmpty then .ok (here, true) else fs.walk here rest
    else if name = ['.', '.'] then
      if rest.isEmpty then .ok (here.dropLast, true) else fs.walk here.dropLast rest
    else
      let place := here ++ [name]
      if rest.isEmpty then .ok (place, false)
      else
        match fs.entry? place with
        | some .directory => fs.walk place rest
        | some (.file _) => .error .notADirectory
        | none =>
          if rest.all (· == []) then .ok (place, true) else .error .notFound

/-- The place that a path leads to, and whether it must be a directory. -/
def resolve (fs : FileSystem) (path : String) : Except FileFault (Place × Bool) :=
  if path.isEmpty then .error .notFound else fs.walk [] (Path.names path)

def find (fs : FileSystem) (path : String) : Except FileFault FileEntry := do
  let (place, _) ← fs.resolve path
  match fs.entry? place with
  | some entry => .ok entry
  | none => .error .notFound

def pathExists (fs : FileSystem) (path : String) : Bool :=
  (fs.find path).toBool

def isDirectory (fs : FileSystem) (path : String) : Bool :=
  match fs.find path with
  | .ok .directory => true
  | _ => false

def read (fs : FileSystem) (path : String) : Except FileFault String := do
  match ← fs.find path with
  | .directory => .error .isADirectory
  | .file bytes =>
    match String.fromUTF8? bytes with
    | some text => .ok text
    | none => .error .notText

/-- Writes a file, which is made if it is not there. -/
def write (fs : FileSystem) (path : String) (bytes : ByteArray) : Except FileFault FileSystem := do
  let (place, wantsDirectory) ← fs.resolve path
  match fs.entry? place with
  | some .directory => .error .isADirectory
  | some (.file _) => .ok (fs.put place (.file bytes))
  | none => if wantsDirectory then .error .isADirectory else .ok (fs.put place (.file bytes))

def makeDirectory (fs : FileSystem) (path : String) : Except FileFault FileSystem := do
  let (place, _) ← fs.resolve path
  match fs.entry? place with
  | some _ => .error .alreadyExists
  | none => .ok (fs.put place .directory)

/-- Makes a directory if there is none. -/
def ensureDirectory (fs : FileSystem) (path : String) : Except FileFault FileSystem :=
  match fs.makeDirectory path with
  | .ok fs => .ok fs
  | .error fault => if fs.isDirectory path then .ok fs else .error fault

/-- Makes a directory and those on the way to it, at most `fuel` of them. Those that were made
stay even if the last cannot be made. -/
def makeDirectories : (fuel : Nat) → FileSystem → String → FileSystem × Except FileFault Unit
  | 0, fs, _ => (fs, .error .notFound)
  | fuel + 1, fs, path =>
    let finish (fs : FileSystem) : FileSystem × Except FileFault Unit :=
      match fs.ensureDirectory path with
      | .ok fs => (fs, .ok ())
      | .error fault => (fs, .error fault)
    if path.isEmpty then (fs, .ok ())
    else if fs.makeDirectory path matches .error .notFound then
      match Path.parent? path with
      | none => (fs, .error .notFound)
      | some parent =>
        match makeDirectories fuel fs parent with
        | (fs, .ok ()) => finish fs
        | (fs, .error fault) => (fs, .error fault)
    else finish fs

end FileSystem

end SignalFlow.Flow
