import TextGrammar.Modifier
import TextGrammar.Settings
import TextGrammar.Symbols

/-!
# The state of an expansion

An expansion reads a `Context`, which never changes while it goes on, and changes a `State`: the
symbols with their pushed rules and the source of random values. The state also keeps a trace of
what was done to it, newest first, in which a push or a pop is listed with its `Scope`.

An expansion that cannot go on ends with a `Halt`.
-/

namespace TextGrammar

/-- Why an expansion cannot go on. -/
inductive Halt where
  /-- A tag has more than one clause. -/
  | ambiguousTag (tag : Text)
  /-- More selections are nested than the expansion was given levels for. -/
  | exhausted
  deriving DecidableEq, Repr

/-- The wording of a halt. -/
def Halt.message : Halt → String
  | ambiguousTag tag => s!"multiple main sections in tag '{tag.asString}'"
  | exhausted => "too many nested selections"

namespace Expansion

/-- Where a push or a pop comes from. -/
inductive Scope where
  /-- An action that stands by itself. -/
  | bare
  /-- An action inside a tag, run before its symbol is looked up. -/
  | before
  /-- The end of a tag, which takes back the pushes of its actions. -/
  | undo
  deriving DecidableEq, Repr

/-- Something that happened in an expansion. -/
inductive Event where
  /-- A tag with a clause for this symbol was met. -/
  | tag (symbol : Text)
  | push (scope : Scope) (name : Text) (rules : List Text)
  | pop (scope : Scope) (name : Text)
  deriving DecidableEq, Repr

/-- What an expansion may look at. -/
structure Context (α : Type) where
  settings : Settings
  modifiers : Registry
  /-- The symbols of the fallback grammars, in order. -/
  fallbacks : List (Symbols α)

/-- What an expansion changes. -/
structure State (α : Type) where
  symbols : Symbols α
  source : Source α
  /-- What has happened, newest first. -/
  trace : List Event := []

namespace State

variable {α : Type}

/-- Note that a tag was met. -/
def enter (s : State α) (symbol : Text) : State α := { s with trace := .tag symbol :: s.trace }

/-- Push rules over a symbol; one that is not there is made by the push. -/
def push (s : State α) (scope : Scope) (name : Text) (rules : List Text) : State α :=
  { s with
    symbols := s.symbols.push name rules true
    trace := .push scope name rules :: s.trace }

/-- Pop the rules pushed last over a symbol. -/
def pop (s : State α) (scope : Scope) (name : Text) : List Diagnostic × State α :=
  let (problems, symbols) := s.symbols.pop name
  (problems, { s with symbols, trace := .pop scope name :: s.trace })

/-- Pop one symbol after the other. -/
def popAll (s : State α) (scope : Scope) : List Text → List Diagnostic × State α
  | [] => ([], s)
  | name :: names =>
    let (problems, s) := s.pop scope name
    let (more, s) := s.popAll scope names
    (problems ++ more, s)

/-- Select a rule for a symbol. -/
def select [Scalar α] (s : State α) (c : Context α) (name : Text) :
    Option Text × List Diagnostic × State α :=
  let selection := s.symbols.select c.fallbacks name s.source
  (selection.rule, selection.problems, { s with source := selection.source })

end State

end Expansion

end TextGrammar
