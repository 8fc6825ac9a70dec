import TextGrammar.Cli.Linter
import TextGrammar.Cli.Preview

/-!
# The command line

The first argument names the command, `grammar_linter` or `preview`; the others are its arguments.
The files that the arguments name are read, directories with everything below them, and the command
works on these.
-/

namespace TextGrammar.Main

open Cli

/-- What is under a path that leads to a place; `height` bounds how far below. -/
def readUnder : (height : Nat) → (path : String) → (place : List Text) → IO Disk
  | height, path, place => do
    let found ← IO.FS.realPath path
    if ← found.isDir then
      let below ← match height with
        | 0 => pure []
        | height + 1 => do
          let entries ← found.readDir
          entries.toList.mapM fun e =>
            readUnder height (path ++ "/" ++ e.fileName) (place ++ [e.fileName.toList])
      return {
        files := below.flatMap (·.files)
        directories := place :: below.flatMap (·.directories) }
    else
      try return { files := [(place, ← IO.FS.readBinFile path)] }
      catch _ => return { files := [] }

/-- The directories along a path, and what is under it; what cannot be read is left out. -/
def readPath (height : Nat) (working : List Text) (path : String) : IO Disk := do
  let names := Text.pieces '/' path.toList
  let steps := (List.range names.length).map fun n => names.take (n + 1)
  let read ← steps.mapM fun taken => do
    let place := taken.foldl Disk.step (Disk.start working path.toList)
    let along := if taken = [[]] then "/" else (Text.join ['/'] taken).asString
    try readUnder (if taken.length = names.length then height else 0) along place
    catch _ => return { files := [] }
  return { files := read.flatMap (·.files), directories := read.flatMap (·.directories) }

/-- What the arguments name, with what is in directories down to some height. -/
def readDisk (height : Nat) (args : List String) : IO Disk := do
  let here ← IO.currentDir
  let working := (Text.pieces '/' here.toString.toList).foldl Disk.step []
  let read ← args.mapM (readPath height working)
  return { files := read.flatMap (·.files), directories := read.flatMap (·.directories), working }

/-- Run the command that the first argument names. -/
def run (args : List String) : IO UInt32 := do
  let texts := args.tail.map String.toList
  let output ← match args.head? with
    | some "grammar_linter" => do
      pure (Linter.run (← readDisk 64 args.tail) texts)
    | some "preview" => do
      let input ← (← IO.getStdin).readToEnd
      pure (Preview.run (← readDisk 0 args.tail) texts input.toList)
    | _ => pure ((Output.lines {} [Linter.usage, Preview.usage]).endWith 1)
  IO.print output.out
  IO.eprint output.err
  return UInt32.ofNat output.exit

end TextGrammar.Main

/-- The entry point. -/
def main (args : List String) : IO UInt32 := TextGrammar.Main.run args
