import TextGrammar.Expansion

/-!
# Grammars

A grammar is a symbol table with settings, modifiers, a source of random values and fallback
grammars, which are asked for symbols it has no rules for. Of a fallback only its own symbols
count, not its fallbacks, settings or source.

Expanding a rule gives a tree and the grammar as it is afterwards: its symbols may have pushed
rules, and values have been drawn from its source.
-/

namespace TextGrammar

/-- A grammar. -/
structure Grammar (α : Type) where
  symbols : Symbols α
  modifiers : Registry
  fallbacks : List (Grammar α)
  source : Source α
  settings : Settings

/-- An expansion that a grammar has made. -/
structure Expanded (α : Type) where
  node : Node
  /-- Why the expansion could not be finished, if it could not. -/
  halt : Option Halt
  /-- The grammar afterwards. -/
  grammar : Grammar α
  /-- What happened, oldest first. -/
  trace : List Expansion.Event

/-- The finished tree, or why there is none. -/
def Expanded.result {α : Type} (e : Expanded α) : Except Halt Node :=
  match e.halt with
  | some halt => .error halt
  | none => .ok e.node

namespace Grammar

variable {α : Type}

/-! ### Loading and looking -/

section Loading

variable [Scalar α]

/-- Replace all symbols by those of a document and drop the fallbacks, unless the document is
refused. -/
def load (d : Document α) : ExceptT (Failure α) (StateM (Grammar α)) Unit := do
  d.validate
  modify fun g => { g with symbols := .ofDocument d, fallbacks := [] }

/-- A grammar for a document. The fallbacks come in once the document is loaded. -/
def ofDocument (d : Document α) (modifiers : Registry) (fallbacks : List (Grammar α))
    (source : Source α) (settings : Settings) : Except (Failure α) (Grammar α) :=
  let empty : Grammar α := { symbols := .empty, modifiers, fallbacks := [], source, settings }
  match (load d).run empty with
  | (.ok (), g) => .ok { g with fallbacks }
  | (.error failure, _) => .error failure

end Loading

/-- The declared symbols with the rules they were declared with. -/
def toDocument (g : Grammar α) : Document α := g.symbols.toDocument

/-- Take all pushed rules away. -/
def clear (g : Grammar α) : Grammar α := { g with symbols := g.symbols.clear }

/-- Push rules over a symbol. -/
def push (g : Grammar α) (name : Text) (rules : List Text) (dynamic : Bool) : Grammar α :=
  { g with symbols := g.symbols.push name rules dynamic }

/-- Pop the rules pushed last over a symbol. -/
def pop (g : Grammar α) (name : Text) : List Diagnostic × Grammar α :=
  let (problems, symbols) := g.symbols.pop name
  (problems, { g with symbols })

/-- Register modifiers; one that is registered under the same name is replaced. -/
def register (g : Grammar α) (modifiers : List (Text × Modifier)) : Grammar α :=
  { g with modifiers := modifiers.foldl (fun r m => r.insert m.1 m.2) g.modifiers }

/-- Add a fallback after those that are there. -/
def addFallback (g : Grammar α) (fallback : Grammar α) : Grammar α :=
  { g with fallbacks := g.fallbacks ++ [fallback] }

/-! ### Expanding -/

/-- What an expansion may look at. -/
def context (g : Grammar α) : Expansion.Context α :=
  { settings := g.settings, modifiers := g.modifiers, fallbacks := g.fallbacks.map (·.symbols) }

/-- What an expansion changes. -/
def state (g : Grammar α) : Expansion.State α := { symbols := g.symbols, source := g.source }

/-- The grammar after an expansion. -/
def withState (g : Grammar α) (s : Expansion.State α) : Grammar α :=
  { g with symbols := s.symbols, source := s.source }

/-- The outcome of an expansion with the grammar it belongs to. -/
def finish (g : Grammar α) (o : Expansion.Outcome α) : Expanded α :=
  { node := o.node, halt := o.halt, grammar := g.withState o.state
    trace := o.state.trace.reverse }

variable [Scalar α]

/-- Select a rule for a symbol. -/
def select (g : Grammar α) (name : Text) : Option Text × List Diagnostic × Grammar α :=
  let (rule, problems, s) := g.state.select g.context name
  (rule, problems, g.withState s)

/-- Expand a node with so many levels of selections. -/
def expandNodeWithin (g : Grammar α) (levels : Nat) (node : Node) : Expanded α :=
  g.finish (Expansion.expand g.context levels node g.state)

/-- Expand a node. -/
def expandNode (g : Grammar α) (node : Node) : Expanded α :=
  g.expandNodeWithin g.settings.levels node

/-- Expand a node, but not the sections of the rule that it is expanded to. -/
def expandNodeShallow (g : Grammar α) (node : Node) : Expanded α :=
  g.finish (Expansion.expandShallow g.context g.settings.levels node g.state)

/-- Run an action of a node at the given depth. -/
def activate (g : Grammar α) (depth : Nat) (action : Action) :
    List Diagnostic × Option Halt × Grammar α :=
  let done := Expansion.activate g.context (Expansion.expand g.context g.settings.levels) .bare
    depth action g.state
  (done.problems, done.halt, g.withState done.state)

/-- Expand a rule with so many levels of selections. Unless `keepEscapes` is set, the escape marks
are removed from the finished text of the whole. -/
def expandWithin (g : Grammar α) (levels : Nat) (rule : Text) (keepEscapes : Bool) : Expanded α :=
  let e := g.expandNodeWithin levels (Node.root rule)
  if keepEscapes then e else { e with node := e.node.stripEscapes }

/-- Expand a rule. -/
def expand (g : Grammar α) (rule : Text) (keepEscapes : Bool) : Expanded α :=
  g.expandWithin g.settings.levels rule keepEscapes

/-- The finished text of a rule. -/
def flatten (g : Grammar α) (rule : Text) : Except Halt Text × Grammar α :=
  let e := g.expand rule g.settings.keepEscapes
  (e.result.map (·.text), e.grammar)

end Grammar

end TextGrammar
