import TextGrammar.Cli.Disk
import TextGrammar.Random
import TextGrammar.Text

/-!
# The preview

The command loads a grammar and reads commands from its input, one a line: expand a rule and show
its text or its tree, expand it many times and show how the texts vary, change the seed, list the
symbols, drop pushed rules. It ends at `quit` or when the input ends.
-/

namespace TextGrammar.Cli.Preview

/-- How to call the command. -/
def usage : String := "Usage: preview --grammar <path> [--settings <path>] [--seed <n>]"

/-- The list of commands. -/
def help : List String :=
  ["Commands:",
    "  expand <rule>      expand a rule and print the text and any errors",
    "  tree <rule>        expand a rule and print the node tree",
    "  bulk <n> [rule]    expand a rule n times (default #origin#)",
    "  seed <n>           reseed and reset the grammar",
    "  symbols            list declared symbols",
    "  clear              drop all pushed rules",
    "  help               show this list",
    "  quit               exit"]

/-- A number of 64 bits in digits, with or without a plus sign. -/
def number? (t : Text) : Option Nat :=
  let digits := match t with
    | '+' :: rest => rest
    | t => t
  if digits.isEmpty || !digits.all Char.isDigit then none
  else
    let n := Numeral.valueIn 10 digits
    if n < UInt64.size then some n else none

/-! ### Arguments -/

/-- What the command is asked for. -/
structure Options where
  grammar : Option Text := none
  settings : Option Text := none
  seed : Nat := 42

/-- Read the arguments; fails with the first that is not an option with a value. A seed that is not
a number counts as the usual one. -/
def Options.read (o : Options) : List Text → Except Text Options
  | [] => .ok o
  | [name] => .error name
  | name :: value :: rest =>
    if name = "--grammar".toList then Options.read { o with grammar := some value } rest
    else if name = "--settings".toList then Options.read { o with settings := some value } rest
    else if name = "--seed".toList then
      Options.read { o with seed := (number? value).getD 42 } rest
    else .error name

/-- Read the document of a file; its format is JSON, unless the extension says RON. -/
def readDocument (disk : Disk) (path : Text) : Except (Failure Float) (Document Float) :=
  (disk.content path).text.bind
    (if Disk.fileExtension path = some ['r', 'o', 'n'] then Document.readRon
      else Document.readJson)

/-- The settings that the options ask for. -/
def readSettings (disk : Disk) (o : Options) : Except (Failure Float) Settings :=
  match o.settings with
  | none => .ok {}
  | some path => (disk.content path).text.bind Settings.readRon

/-! ### Commands -/

/-- What the commands work on. -/
structure Session where
  document : Document Float
  settings : Settings
  seed : Nat
  grammar : Grammar Float
  output : Output

/-- A fresh grammar with a seed. -/
def fresh (d : Document Float) (settings : Settings) (seed : Nat) :
    Except (Failure Float) (Grammar Float) :=
  Grammar.ofDocument d .empty [] (.seeded (.ofNat seed)) settings

namespace Session

/-- Write a line. -/
def line (s : Session) (t : String) : Session := { s with output := s.output.line t }

/-- Write lines. -/
def lines (s : Session) (ts : List String) : Session := { s with output := s.output.lines ts }

/-- The problems of a tree, a line each. -/
def problemLines (n : Node) : List String := n.problems.map fun p => "  ! " ++ p.message

/-- Expand a rule, keep the grammar as it is afterwards, and show the tree. -/
def expandWith (s : Session) (rule : Text) (showTree : Node → List String) : Session :=
  let e := s.grammar.expand rule false
  let s := { s with grammar := e.grammar }
  match e.result with
  | .ok root => s.lines (showTree root)
  | .error halt => s.line ("ERROR: " ++ halt.message)

/-- The lines that show the text of a tree. -/
def textLines (root : Node) : List String :=
  ("\n" ++ root.text.asString ++ "\n") :: problemLines root

mutual

/-- The lines that show a node and everything below it. -/
def nodeLines (n : Node) : List String :=
  match n with
  | { raw, kind, depth, text, children, .. } =>
    let shown : Node := { raw, kind, depth, index := 0 }
    ("".pushn ' ' (2 * depth) ++ shown.describe ++ " => " ++ (Text.quoted text).asString) ::
      nodesLines children

/-- The lines that show nodes in order. -/
def nodesLines : List Node → List String
  | [] => []
  | n :: ns => nodeLines n ++ nodesLines ns

end

/-- The lines that show a tree. -/
def treeLines (root : Node) : List String := "" :: nodeLines root ++ problemLines root ++ [""]

/-- Change the seed and begin anew, or show the seed. -/
def reseed (s : Session) (argument : Text) : Session :=
  if argument.isEmpty then s.line s!"Current seed: {s.seed}"
  else
    match number? argument with
    | none => s.line ("Invalid seed: " ++ argument.asString)
    | some seed =>
      match fresh s.document s.settings seed with
      | .ok grammar => { s with seed, grammar }.line s!"Seed set to {seed}"
      | .error e => s.line ("ERROR: " ++ e.message)

/-- What many expansions of a rule gave. -/
structure Bulk where
  /-- The texts, the last one first. -/
  passages : List Text := []
  halts : Nat := 0
  problems : Nat := 0

/-- Expand a rule so many times. -/
def runBulk (rule : Text) : (count : Nat) → Grammar Float → Bulk → Bulk
  | 0, _, b => b
  | count + 1, g, b =>
    let e := g.expand rule false
    runBulk rule count e.grammar <|
      match e.result with
      | .ok root =>
        { b with
          passages := root.text :: b.passages
          problems := b.problems + root.problems.length }
      | .error _ => { b with halts := b.halts + 1 }

/-- A number that fills three columns. -/
def column (n : Nat) : String := "".pushn ' ' (3 - (toString n).length) ++ toString n

/-- The lines that show the outcome of many expansions. -/
def Bulk.lines (b : Bulk) : List String :=
  let passages := b.passages.reverse
  let count := passages.length
  let words := passages.foldl (fun n p => n + Text.countWords p) 0
  let average : Float := if count = 0 then 0 else Float.ofNat words / Float.ofNat count
  let title := s!"\n=== Bulk Generation: {count} passages "
  let counts := s!"({b.halts} errors, {b.problems} diagnostics) ===\n"
  [title ++ counts,
    s!"Distinct passages: {passages.eraseDups.length}/{count}",
    "Average length: " ++ Layout.writeFixed 1 average ++ " words\n"] ++
    (passages.take 10).mapIdx (fun i p => column (i + 1) ++ ". " ++ p.asString) ++
    (if 10 < count then [s!"  ... {count - 10} more"] else []) ++ [""]

/-- Expand a rule many times with a fresh grammar. -/
def bulk (s : Session) (argument : Text) : Session :=
  let (count, rule) := (Text.cut? ' ' argument).getD (argument, "#origin#".toList)
  match (number? count).filter (0 < ·) with
  | none => s.line "Usage: bulk <n> [rule]"
  | some count =>
    match fresh s.document s.settings s.seed with
    | .ok g => s.lines (runBulk (Text.trim rule) count g {}).lines
    | .error e => s.line ("ERROR: " ++ e.message)

/-- The declared symbols and how many rules each has. -/
def symbolLines (s : Session) : List String :=
  s.grammar.symbols.entries.map fun (name, store) =>
    "  " ++ name.asString ++ s!" ({store.active.length} rules)"

/-- The lower case of a character, if that is an ASCII letter: the Kelvin sign has one, too. -/
def lower (c : Char) : Char := if c = '\u212A' then 'k' else c.toLower

/-- Run a command with its argument; the result says whether to go on. -/
def command (s : Session) (word argument : Text) : Session × Bool :=
  match Text.asString (word.map lower) with
  | "quit" | "exit" | "q" => (s.line "Goodbye.", false)
  | "help" | "h" | "?" => (s.lines help, true)
  | "expand" | "e" =>
    if argument.isEmpty then (s.line "Usage: expand <rule>", true)
    else (s.expandWith argument textLines, true)
  | "tree" =>
    if argument.isEmpty then (s.line "Usage: tree <rule>", true)
    else (s.expandWith argument treeLines, true)
  | "seed" => (s.reseed argument, true)
  | "bulk" => (s.bulk argument, true)
  | "symbols" => (s.lines s.symbolLines, true)
  | "clear" => ({ s with grammar := s.grammar.clear }.line "Pushed rules cleared.", true)
  | _ => (s.line ("Unknown command '" ++ word.asString ++ "'. Type 'help' for commands."), true)

/-- Run the commands of the input lines. -/
def run (s : Session) : List Text → Session
  | [] => { s with output := s.output.put "preview> " }
  | input :: inputs =>
    let s := { s with output := s.output.put "preview> " }
    let input := Text.trim input
    if input.isEmpty then s.run inputs
    else
      let (word, argument) := (Text.cut? ' ' input).getD (input, [])
      let (s, goOn) := s.command word (Text.trim argument)
      if goOn then s.run inputs else s

end Session

/-! ### The whole command -/

/-- Write an error and end with code one. -/
def fail (message : String) : Output := (Output.error {} message).endWith 1

/-- The lines of an input; a line break at its end begins no line. -/
def inputLines (input : Text) : List Text :=
  let lines := Text.pieces '\n' input
  if lines.getLast? = some [] then lines.dropLast else lines

/-- Run the command. -/
def run (disk : Disk) (args : List Text) (input : Text) : Output :=
  if args.isEmpty || args.head? = some "--help".toList || args.head? = some "-h".toList then
    Output.line {} usage
  else
    match Options.read {} args with
    | .error name => (fail ("Unknown argument: " ++ name.asString)).line usage
    | .ok { grammar := none, .. } => (fail "ERROR: --grammar is required").line usage
    | .ok o@{ grammar := some path, .. } =>
      match readDocument disk path with
      | .error e => fail ("ERROR: Failed to load grammar: " ++ e.message)
      | .ok document =>
        match readSettings disk o with
        | .error e => fail ("ERROR: Failed to load settings: " ++ e.message)
        | .ok settings =>
          let output := Output.lines {}
            [s!"Loaded {document.size} symbols", s!"Seed: {o.seed}", "Type 'help' for commands.\n"]
          match fresh document settings o.seed with
          | .error e => (output.line ("ERROR: " ++ e.message)).endWith 1
          | .ok grammar =>
            let s : Session := { document, settings, seed := o.seed, grammar, output }
            (s.run (inputLines input)).output

end TextGrammar.Cli.Preview
