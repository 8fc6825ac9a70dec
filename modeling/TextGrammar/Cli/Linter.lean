import TextGrammar.Cli.Disk
import TextGrammar.Lint

/-!
# The linter

The command checks a grammar file, or all grammar files in a directory and below it, and prints a
report. Files of other kinds are passed over in a directory, and so are files of settings. It ends
with code one when it finds errors or cannot load what it was asked for.
-/

namespace TextGrammar.Cli.Linter

/-- How to call the command. -/
def usage : String :=
  "Usage: grammar_linter <grammar_file_or_dir> [--origin <symbol>] [--settings <path>]"

/-- What the command is asked for besides the path. -/
structure Options where
  origin : Text := "origin".toList
  settings : Option Text := none

/-- Read the arguments after the path. What is not an option with a value is passed over. -/
def Options.read (o : Options) : List Text → Options
  | [] | [_] => o
  | name :: value :: rest =>
    if name = "--origin".toList then Options.read { o with origin := value } rest
    else if name = "--settings".toList then Options.read { o with settings := some value } rest
    else o.read (value :: rest)

/-- Read the document of a file, if its extension tells the format. -/
def readFile? (disk : Disk) (path : Text) : Option (Except (Failure Float) (Document Float)) :=
  match Disk.fileExtension path with
  | some ['j', 's', 'o', 'n'] => some ((disk.content path).text.bind Document.readJson)
  | some ['r', 'o', 'n'] => some ((disk.content path).text.bind Document.readRon)
  | _ => none

/-- Load all files in the directory at a place, which the path leads to, and below it; `height`
bounds how far below. -/
def loadDirectory (disk : Disk) :
    (height : Nat) → (place : List Text) → (path : Text) → Document Float × Output →
      Document Float × Output
  | 0, _, _, loaded => loaded
  | height + 1, place, directory, loaded =>
    (disk.namesIn place).foldl
      (fun loaded name =>
        let path := Disk.join directory name
        let (d, o) := loaded
        match disk.entry? (place ++ [name]) with
        | some (.directory place) => loadDirectory disk height place path loaded
        | _ =>
          if name = "settings.ron".toList then loaded
          else
            match readFile? disk path with
            | some (.ok more) => (d.merge more, o.line ("  Loaded: " ++ path.asString))
            | some (.error e) =>
              (d, o.error ("  ERROR loading " ++ path.asString ++ ": " ++ e.message))
            | none => loaded)
      loaded

/-- Load what a path names, or write why it cannot be loaded. -/
def load (disk : Disk) (path : Text) : Except Output (Document Float × Output) :=
  match disk.find path with
  | .ok (.file _) =>
    match readFile? disk path with
    | some (.ok d) => .ok (d, {})
    | some (.error e) =>
      .error ((Output.error {} ("ERROR: Failed to load grammar file: " ++ e.message)).endWith 1)
    | none =>
      .error ((Output.error {}
        ("ERROR: '" ++ path.asString ++ "' is not a .json or .ron file")).endWith 1)
  | .ok (.directory place) =>
    .ok (loadDirectory disk (disk.height + 1) place path (.empty, {}))
  | .error _ =>
    .error ((Output.error {} ("ERROR: Path '" ++ path.asString ++ "' does not exist")).endWith 1)

/-- The settings that the options ask for. -/
def settings (disk : Disk) (o : Options) : Except (Failure Float) Settings :=
  match o.settings with
  | none => .ok {}
  | some path => (disk.content path).text.bind Settings.readRon

/-- Print a report. -/
def printReport (o : Output) (report : Lint.Report) : Output :=
  let o := o.line "\n=== Grammar Lint Report ===\n"
  let o := if report.isClean then o.line "All checks passed!" else o
  let o := o.lines (report.warnings.map fun w => "WARNING: " ++ w.message)
  let o := o.lines (report.errors.map fun e => "ERROR: " ++ e.message)
  let errors := report.errors.length
  let warnings := report.warnings.length
  let o := o.line s!"\nSummary: {errors} errors, {warnings} warnings"
  if report.errors.isEmpty then o else o.endWith 1

/-- Run the command. -/
def run (disk : Disk) (args : List Text) : Output :=
  match args with
  | [] => Output.line {} usage
  | path :: rest =>
    if path = "--help".toList || path = "-h".toList then Output.line {} usage
    else
      let options := Options.read {} rest
      match load disk path with
      | .error o => o
      | .ok (d, o) =>
        match settings disk options with
        | .error e => (o.error ("ERROR: Failed to load settings: " ++ e.message)).endWith 1
        | .ok s =>
          printReport (o.line s!"Loaded {d.size} symbols") (lint d options.origin s.separator)

end TextGrammar.Cli.Linter
