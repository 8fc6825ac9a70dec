import TextGrammar.Document.Json
import TextGrammar.Document.Ron
import TextGrammar.Grammar

/-!
# Building grammars

A plan collects what a grammar is built from. Its files are read in order, those in JSON before
those in RON, each is validated and merged over the ones before, and a definition given directly
is merged last. Settings given directly come before a file with settings, and a depth cap given
directly replaces theirs. `Plan.build` ends with the first failure.
-/

namespace TextGrammar

/-- The bytes of a file, or why there are none. -/
abbrev FileContent := Except FileFault ByteArray

/-- The text of a file. -/
def FileContent.text {α : Type} (f : FileContent) : Except (Failure α) Text :=
  match f with
  | .error fault => .error (.file fault)
  | .ok bytes =>
    match String.fromUTF8? bytes with
    | some s => .ok s.toList
    | none => .error (.file .notText)

/-- What a grammar is built from. -/
structure Plan where
  jsonFiles : List FileContent := []
  ronFiles : List FileContent := []
  settingsFile : Option FileContent := none
  settings : Option Settings := none
  /-- A cap that replaces the one of the settings, or the absence of a cap. -/
  maxDepth : Option (Option Nat) := none
  definition : Option (Document Float) := none
  modifiers : Registry := .empty
  fallbacks : List (Grammar Float) := []
  source : Source Float

namespace Plan

/-- Read files one after the other and merge them. -/
def mergeFiles (read : Text → Except (Failure Float) (Document Float)) :
    List FileContent → Document Float → Except (Failure Float) (Document Float)
  | [], d => .ok d
  | file :: files, d => do
    let t ← file.text
    mergeFiles read files (d.merge (← read t))

/-- The document of all declarations. -/
def document (p : Plan) : Except (Failure Float) (Document Float) := do
  let d ← mergeFiles Document.readJson p.jsonFiles .empty
  let d ← mergeFiles Document.readRon p.ronFiles d
  return match p.definition with
    | some definition => d.merge definition
    | none => d

/-- The settings without the cap that may replace theirs. -/
def baseSettings (p : Plan) : Except (Failure Float) Settings :=
  match p.settings, p.settingsFile with
  | some settings, _ => .ok settings
  | none, some file => file.text.bind Settings.readRon
  | none, none => .ok {}

/-- Build the grammar. -/
def build (p : Plan) : Except (Failure Float) (Grammar Float) := do
  let d ← p.document
  let settings ← p.baseSettings
  let settings := { settings with maxDepth := p.maxDepth.getD settings.maxDepth }
  Grammar.ofDocument d p.modifiers p.fallbacks p.source settings

end Plan

end TextGrammar
