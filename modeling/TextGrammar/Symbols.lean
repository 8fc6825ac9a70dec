import TextGrammar.Diagnostic
import TextGrammar.Document
import TextGrammar.Store

/-!
# Symbol tables

The symbols of a grammar: a table of rule stores. A push on a name that is not there makes a new
symbol at the end; a pop leaves the store behind, even when it has become empty.

A reference asks the table of the grammar first and then the tables of its fallbacks, in order;
stores without active rules are passed over. `Symbols.select` takes a rule from the store found,
and where there is none it reports the name and gives the placeholder as the rule.
-/

namespace TextGrammar

/-- A table of rule stores. -/
abbrev Symbols (α : Type) := Named (Store α)

namespace Symbols

variable {α : Type}

/-- The store of a declared symbol. -/
def declare (name : Text) (definition : Definition α) : Store α :=
  { name, base := definition.rules, weights := definition.weights? }

/-- The symbols that a document declares. -/
def ofDocument (d : Document α) : Symbols α := d.mapValues declare

/-- The declaration that a store keeps. -/
def definitionOf (s : Store α) : Definition α :=
  match s.weights with
  | some weights => .weighted s.base weights
  | none => .many s.base

/-- The declared symbols as a document; rules that were pushed have no part in it. -/
def toDocument (t : Symbols α) : Document α :=
  (t.filter fun _ s => !s.dynamic).mapValues fun _ s => definitionOf s

/-- Push rules over a name. If the name is not there, the symbol is made: with `dynamic` by the
push alone, otherwise with the rules as its base. -/
def push (t : Symbols α) (name : Text) (rules : List Text) (dynamic : Bool) : Symbols α :=
  if t.contains name then t.modify name (·.push rules)
  else t.insert name (if dynamic then .pushed name rules else { name, base := rules })

/-- Take the rules pushed last over a name away. If there are none, the table stays as it is and
the pop is reported. -/
def pop (t : Symbols α) (name : Text) : List Diagnostic × Symbols α :=
  match t.find? name with
  | some { overrides := _ :: _, .. } => ([], t.modify name (·.pop))
  | _ => ([.popWithoutPush name], t)

/-- Take all pushed rules away. -/
def clear (t : Symbols α) : Symbols α := t.mapValues fun _ s => s.clear

/-- The store of a name, if it has active rules. -/
def active? (t : Symbols α) (name : Text) : Option (Store α) :=
  (t.find? name).filter fun s => !s.active.isEmpty

/-- The store that a reference to a name takes its rule from. -/
def resolve? (t : Symbols α) (fallbacks : List (Symbols α)) (name : Text) : Option (Store α) :=
  (t.active? name).or (fallbacks.findSome? fun f => f.active? name)

/-- What to report of a name without rules: a declared symbol is empty, any other is missing. -/
def unresolved (t : Symbols α) (name : Text) : Diagnostic :=
  match t.find? name with
  | some { dynamic := false, .. } => .emptySymbol name
  | _ => .missingSymbol name

/-- What a selection gives. -/
structure Selection (α : Type) where
  /-- The rule to expand, if there is one. -/
  rule : Option Text
  problems : List Diagnostic
  source : Source α

variable [Scalar α]

/-- Select a rule for a name. -/
def select (t : Symbols α) (fallbacks : List (Symbols α)) (name : Text) (source : Source α) :
    Selection α :=
  match t.resolve? fallbacks name with
  | none => ⟨some (Text.placeholder name), [t.unresolved name], source⟩
  | some store =>
    match store.select source with
    | (some rule, source) => ⟨some rule, [], source⟩
    | (none, source) => ⟨none, [.emptySymbol name], source⟩

end Symbols

end TextGrammar
