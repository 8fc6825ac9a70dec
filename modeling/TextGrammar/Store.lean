import TextGrammar.Random
import TextGrammar.Text

/-!
# Rule stores

The store of a symbol holds the rules it was declared with, its base, and the lists of rules
pushed over them. The list pushed last is active; without one, the base is. Weights belong to the
base.

`Store.select` draws one value and takes a rule: of pushed rules and of a base without weights each
is as likely as any other, otherwise rule `i` is taken when the value, scaled by the sum of all
weights, lies between the sum of the weights before it and that sum with its own weight added.
-/

namespace TextGrammar

/-- The rules of one symbol. -/
structure Store (α : Type) where
  /-- The name of the symbol. -/
  name : Text
  base : List Text
  weights : Option (List α) := none
  /-- The pushed lists, the last one first. -/
  overrides : List (List Text) := []
  /-- The symbol is not declared; a push made it. -/
  dynamic : Bool := false
  deriving Repr

namespace Store

variable {α : Type}

/-- The store that a push makes for a symbol that is not there. -/
def pushed (name : Text) (rules : List Text) : Store α :=
  { name, base := [], overrides := [rules], dynamic := true }

/-- The rules that a selection takes from. -/
def active (s : Store α) : List Text := s.overrides.headD s.base

/-- The number of pushed lists. -/
def depth (s : Store α) : Nat := s.overrides.length

/-- Push a list of rules. -/
def push (s : Store α) (rules : List Text) : Store α := { s with overrides := rules :: s.overrides }

/-- Take the last pushed list away, if there is one. -/
def pop (s : Store α) : Store α := { s with overrides := s.overrides.tail }

/-- Take all pushed lists away. -/
def clear (s : Store α) : Store α := { s with overrides := [] }

variable [Scalar α]

/-- The first rule whose cumulative weight exceeds the target. -/
def reach (target : α) : α → List (Text × α) → Option Text
  | _, [] => none
  | below, (rule, weight) :: rest =>
    let reached := Scalar.add below weight
    if Scalar.lt target reached then some rule else reach target reached rest

/-- The rule a value selects among weighted rules. Where rounding leaves the target at the very
top, it is the last rule of positive weight. -/
def pickWeighted (rules : List Text) (weights : List α) (value : α) : Option Text :=
  let pairs := rules.zip weights
  match reach (Scalar.mul value (Scalar.sum weights)) Scalar.zero pairs with
  | some rule => some rule
  | none => (pairs.reverse.find? fun p => Scalar.lt Scalar.zero p.2).map (·.1)

/-- The rule a value selects among rules of equal weight. -/
def pickUniform (rules : List Text) (value : α) : Option Text :=
  rules[Source.indexOf value rules.length]?

/-- The rule a value selects. -/
def pick (s : Store α) (value : α) : Option Text :=
  match s.overrides, s.weights with
  | rules :: _, _ => pickUniform rules value
  | [], some weights => pickWeighted s.base weights value
  | [], none => pickUniform s.base value

/-- Select a rule. One value is drawn, unless there is nothing to select from. -/
def select (s : Store α) (source : Source α) : Option Text × Source α :=
  if s.active.isEmpty then (none, source)
  else
    let (value, source) := source.next
    (s.pick value, source)

end Store

end TextGrammar
