import TextGrammar.Grammar.Plan

/-!
# Files and output

A disk holds the bytes of files and knows directories. Each has a place, which is the list of names
that lead there from the top. A directory is there when it is known or when something is below it.

A written path is walked name by name, beginning at the top if it starts with a slash and at the
working directory otherwise. Every name but the last must lead to a directory, also one that `..`
leaves again; so `x/..` is only the directory itself where `x` is one.

A command writes lines to its output and to its errors and ends with an exit code.
-/

namespace TextGrammar.Cli

/-- Files and directories with their places. -/
structure Disk where
  files : List (List Text × ByteArray)
  /-- Directories that may have nothing below them. -/
  directories : List (List Text) := []
  /-- The place of the working directory. -/
  working : List Text := []

/-- What is found under a path. -/
inductive Entry where
  | file (bytes : ByteArray)
  | directory (place : List Text)

namespace Disk

/-- The place that a name leads to from another place. -/
def step (place : List Text) (name : Text) : List Text :=
  if name.isEmpty || name = ['.'] then place
  else if name = ['.', '.'] then place.dropLast
  else place ++ [name]

/-- Where the walk along a path begins. -/
def start (working : List Text) (path : Text) : List Text :=
  if path.head? = some '/' then [] else working

/-- A disk on which files are written under paths, in order; a later one replaces an earlier one at
the same place. -/
def ofFiles (working : List Text) (files : List (Text × ByteArray)) : Disk where
  files := files.foldl
    (fun written (path, bytes) =>
      let place := (Text.pieces '/' path).foldl step (start working path)
      written.filter (·.1 != place) ++ [(place, bytes)]) []
  working := working

/-- The places that are on the disk. -/
def places (d : Disk) : List (List Text) := d.working :: d.directories ++ d.files.map (·.1)

/-- What is at a place. -/
def entry? (d : Disk) (place : List Text) : Option Entry :=
  match d.files.lookup place with
  | some bytes => some (.file bytes)
  | none =>
    if place.isEmpty || d.places.any place.isPrefixOf then some (.directory place) else none

/-- The most bytes in a name. -/
def maxName : Nat := 255

/-- The most bytes in a path. -/
def maxPath : Nat := 4095

/-- Go on from an entry along the names of a path. -/
def walk (d : Disk) : Entry → List Text → Except FileFault Entry
  | e, [] => .ok e
  | .file _, _ :: _ => .error .notDirectory
  | .directory place, name :: names =>
    if maxName < Text.byteLength name then .error .longName
    else
      match d.entry? (step place name) with
      | some e => d.walk e names
      | none => .error .missing

/-- What is found under a written path. -/
def find (d : Disk) (path : Text) : Except FileFault Entry :=
  if path.isEmpty then .error .missing
  else if maxPath < Text.byteLength path then .error .longName
  else d.walk (.directory (start d.working path)) (Text.pieces '/' path)

/-- The bytes of the file under a written path. -/
def content (d : Disk) (path : Text) : FileContent :=
  match d.find path with
  | .ok (.file bytes) => .ok bytes
  | .ok (.directory _) => .error .directory
  | .error fault => .error fault

/-- The names in a directory, in the order of the files. -/
def namesIn (d : Disk) (place : List Text) : List Text :=
  (d.places.filterMap fun p => if place.isPrefixOf p then p[place.length]? else none).eraseDups

/-- The path of a name in a directory. -/
def join (directory name : Text) : Text :=
  if directory.getLast? = some '/' then directory ++ name else directory ++ '/' :: name

/-- How many directories can be inside each other. -/
def height (d : Disk) : Nat := d.places.foldl (fun n p => max n p.length) 0

/-- The extension of the last name of a path: what follows its last point, if that is not its first
character. -/
def fileExtension (path : Text) : Option Text := do
  let name ← ((Text.pieces '/' path).filter fun n => !n.isEmpty && n ≠ ['.']).getLast?
  if name = ['.', '.'] then failure
  let parts := Text.pieces '.' name
  let last ← parts.getLast?
  if parts.length < 2 || parts.dropLast = [[]] then failure
  return last

end Disk

/-! ### Output -/

/-- What a command has written, and its exit code. -/
structure Output where
  exit : Nat := 0
  out : String := ""
  err : String := ""
  deriving Repr

namespace Output

/-- Write to the output. -/
def put (o : Output) (s : String) : Output := { o with out := o.out ++ s }

/-- Write a line to the output. -/
def line (o : Output) (s : String) : Output := { o with out := o.out ++ s ++ "\n" }

/-- Write a line to the errors. -/
def error (o : Output) (s : String) : Output := { o with err := o.err ++ s ++ "\n" }

/-- Write lines to the output. -/
def lines (o : Output) (ss : List String) : Output := ss.foldl line o

/-- End with a code. -/
def endWith (o : Output) (code : Nat) : Output := { o with exit := code }

end Output

end TextGrammar.Cli
